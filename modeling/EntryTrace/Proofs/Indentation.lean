import EntryTrace.Proofs.Everywhere
import EntryTrace.Proofs.Literals
import EntryTrace.Proofs.RelatedTexts
import EntryTrace.Tree.Build

/-!
# Indentation

The lines of a text are moved in by putting blanks behind every line break. The text of a tree one
level further in is the text moved in by one width, provided no line breaks come from the words or
comments of the tree. So a block is the texts of its statements, each moved in by one width, on
lines of their own between braces.
-/

namespace EntryTrace

set_option autoImplicit false

namespace Text

variable {width : Nat}

/-- The text with every line but the first moved in by so many blanks. -/
def indented (width : Nat) (text : List Char) : List Char :=
  text.flatMap fun c => if c = '\n' then '\n' :: List.replicate width ' ' else [c]

theorem indented_append (width : Nat) (a b : List Char) :
    indented width (a ++ b) = indented width a ++ indented width b :=
  List.flatMap_append

theorem indented_eq_self {text : List Char} (h : '\n' ∉ text) : indented width text = text := by
  induction text with
  | nil => rfl
  | cons c text ih =>
    rw [List.mem_cons, not_or] at h
    rw [indented, List.flatMap_cons, if_neg (Ne.symm h.1)]
    exact congrArg (c :: ·) (ih h.2)

theorem indented_newline (layout : Layout) (level : Nat) :
    indented layout.indentWidth (layout.newline level) = layout.newline (level + 1) := by
  have hblanks : '\n' ∉ List.replicate (level * layout.indentWidth) ' ' := by simp
  unfold Layout.newline
  rw [← List.singleton_append, indented_append, indented_eq_self hblanks, Nat.succ_mul,
    Nat.add_comm, ← List.replicate_append_replicate]
  simp [indented]

theorem newline_not_mem_literal (value : List Char) : '\n' ∉ literal value := by
  intro h
  cases isControl_of_mem_literal h

theorem compositional_indented (width : Nat) :
    Compositional fun text moved => indented width text = moved where
  fixed text h := by
    apply indented_eq_self
    intro hnewline
    cases List.all_eq_true.mp h '\n' hnewline
  operator o := by
    apply indented_eq_self
    cases o <;> decide
  literal value := indented_eq_self (newline_not_mem_literal value)
  append := by
    rintro a _ c _ rfl rfl
    exact indented_append width a c

end Text

open Text

theorem Comment.indented_render (layout : Layout) (level : Nat) {comment : Comment}
    (h : '\n' ∉ comment.text.toList) :
    indented layout.indentWidth (comment.render layout level) =
      comment.render layout (level + 1) := by
  unfold render
  cases comment.style with
  | block =>
    apply indented_eq_self
    simp [h]
  | line =>
    have htext : '\n' ∉ "//".toList ++ comment.text.toList := by simp [h]
    dsimp only
    rw [indented_append, indented_newline, indented_eq_self htext]

namespace Node

/-- Neither a word in the node itself nor a comment that is written before it holds a line break. -/
def Unbroken (layout : Layout) (n : Node) : Prop :=
  (∀ w ∈ n.form.words, '\n' ∉ w.toList) ∧
    (layout.comments = true → ∀ c ∈ n.comments, '\n' ∉ c.text.toList)

instance (layout : Layout) (n : Node) : Decidable (n.Unbroken layout) :=
  inferInstanceAs (Decidable (_ ∧ _))

variable {layout : Layout} {n : Node}

theorem indented_leading (level : Nat) {comments : List Comment}
    (h : layout.comments = true → ∀ c ∈ comments, '\n' ∉ c.text.toList) :
    indented layout.indentWidth (leading layout level comments) =
      leading layout (level + 1) comments := by
  unfold leading
  split
  · rename_i hwritten
    apply Form.related_flatMap (compositional_indented layout.indentWidth)
    intro c hc
    exact Comment.indented_render layout level (h hwritten c hc)
  · rfl

/-- One level further in, the lines are moved in by one width, and nothing else changes. -/
theorem indented_render (h : n.Everywhere (Unbroken layout)) (level : Nat) :
    indented layout.indentWidth (n.render layout level) = n.render layout (level + 1) := by
  induction n using Node.induction generalizing level with
  | step n ih =>
    have hform : indented layout.indentWidth ((n.form.map (render layout)).render layout level) =
        (n.form.map (render layout)).render layout (level + 1) := by
      apply Form.related_render (compositional_indented layout.indentWidth)
      · intro k
        rw [indented_newline, Nat.add_right_comm]
      · intro w hw
        exact indented_eq_self (h.root.1 w hw)
      · intro c hc k
        rw [ih c hc (h.child hc), Nat.add_right_comm]
    rw [render_eq, render_eq, indented_append, indented_leading level h.root.2, hform]

theorem print_block_eq_indented (layout : Layout) {ns : List Node} (hne : ns ≠ [])
    (h : ∀ n ∈ ns, n.Everywhere (Unbroken layout)) :
    ((block ns).print layout).toList =
      '{' :: (ns.flatMap fun n => '\n' :: (List.replicate layout.indentWidth ' ' ++
        indented layout.indentWidth (n.print layout).toList)) ++ ['\n', '}'] := by
  have hline (n : Node) (hn : n ∈ ns) : layout.newline 1 ++ n.render layout 1 =
      '\n' :: (List.replicate layout.indentWidth ' ' ++
        indented layout.indentWidth (n.print layout).toList) := by
    rw [print, String.toList_ofList, indented_render (h n hn), Layout.newline, Nat.one_mul]
    rfl
  have hlines : (ns.flatMap fun n => layout.newline 1 ++ n.render layout 1) =
      ns.flatMap fun n => '\n' :: (List.replicate layout.indentWidth ' ' ++
        indented layout.indentWidth (n.print layout).toList) :=
    congrArg List.flatten (List.map_congr_left hline)
  rw [print, String.toList_ofList, block, render_ofForm]
  dsimp only [Form.map, Form.render]
  rw [Form.blockText_map layout 0 (render layout) hne, hlines, Layout.newline_zero,
    List.append_assoc]
  rfl

/-- A loop with a line comment inside, and a return of a string with a line break in it. -/
def loopAndReturn : List Node :=
  [ofForm (.whileStatement (ofForm (.booleanLiteral true))
      (block [(breakTo (some "outer")).addComment ⟨.line, " again"⟩])),
    ofForm (.returnStatement (some (ofForm (.stringLiteral "a\nb"))))]

theorem print_block_loopAndReturn :
    loopAndReturn ≠ [] ∧ (∀ n ∈ loopAndReturn, n.Everywhere (Unbroken ⟨2, true⟩)) ∧
      ((block loopAndReturn).print ⟨2, true⟩).toList =
        '{' :: (loopAndReturn.flatMap fun n => '\n' :: ([' ', ' '] ++
          indented 2 (n.print ⟨2, true⟩).toList)) ++ ['\n', '}'] :=
  have hne : loopAndReturn ≠ [] := by decide
  have h : ∀ n ∈ loopAndReturn, n.Everywhere (Unbroken ⟨2, true⟩) := by decide
  ⟨hne, h, print_block_eq_indented ⟨2, true⟩ hne h⟩

end Node

end EntryTrace
