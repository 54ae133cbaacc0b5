import EntryTrace.Proofs.RelatedTexts
import EntryTrace.Proofs.Tokens
import EntryTrace.Proofs.WellFormed
import EntryTrace.Tree.Build

/-!
# Comments can be taken out of the text

A text is rid of its comments by one scan: string literals are copied whole, a block comment goes
with the blank behind it, a line comment with its line break and the indentation of the next line.
In the text of a well-formed tree the scan finds the comments of the tree and nothing else, so it
leaves the text that is written without comments. This rests on two facts: nothing but a comment
opens a comment (`Text.compositional_inert`), and what follows the comments of a node never begins
with a blank (`Node.head?_render_form`). On the side of the tree nothing needs to be assumed: to write
a tree without comments is to take its comments off and write what is left.
-/

namespace EntryTrace

set_option autoImplicit false

namespace Text

/-- A literal whose opening quote has been read, up to the quote that closes it, and what follows.
A backslash and the character behind it belong together. -/
def splitLiteral : List Char → List Char × List Char
  | [] => ([], [])
  | '"' :: rest => (['"'], rest)
  | '\\' :: c :: rest => ('\\' :: c :: (splitLiteral rest).1, (splitLiteral rest).2)
  | c :: rest => (c :: (splitLiteral rest).1, (splitLiteral rest).2)

/-- What follows the first `*/` and one blank after it. -/
def afterBlock : List Char → List Char
  | [] => []
  | '*' :: '/' :: ' ' :: rest => rest
  | '*' :: '/' :: rest => rest
  | _ :: rest => afterBlock rest

/-- What follows the first line break and the blanks after it. -/
def afterLine (cs : List Char) : List Char :=
  ((cs.dropWhile (· != '\n')).drop 1).dropWhile (· == ' ')

theorem length_splitLiteral_le (cs : List Char) : (splitLiteral cs).2.length ≤ cs.length := by
  fun_induction splitLiteral cs with
  | case1 => exact Nat.le_refl _
  | case2 rest => exact Nat.le_succ _
  | case3 c rest ih => simp only [List.length_cons]; omega
  | case4 c rest _ _ ih => simp only [List.length_cons]; omega

theorem length_afterBlock_le (cs : List Char) : (afterBlock cs).length ≤ cs.length := by
  fun_induction afterBlock cs with
  | case1 => exact Nat.le_refl _
  | case2 rest => simp only [List.length_cons]; omega
  | case3 rest _ => simp only [List.length_cons]; omega
  | case4 c rest _ _ ih => simp only [List.length_cons]; omega

theorem length_afterLine_le (cs : List Char) : (afterLine cs).length ≤ cs.length := by
  have hblanks := (List.dropWhile_suffix (l := (cs.dropWhile (· != '\n')).drop 1)
    (· == ' ')).length_le
  have hbreak := (List.drop_suffix 1 (cs.dropWhile (· != '\n'))).length_le
  have hline := (List.dropWhile_suffix (l := cs) (· != '\n')).length_le
  unfold afterLine
  omega

/-- The text without its comments. String literals are copied as they are, whatever they hold. -/
def uncommented : List Char → List Char
  | [] => []
  | '"' :: rest => '"' :: ((splitLiteral rest).1 ++ uncommented (splitLiteral rest).2)
  | '/' :: '*' :: rest => uncommented (afterBlock rest)
  | '/' :: '/' :: rest => uncommented (afterLine rest)
  | c :: rest => c :: uncommented rest
termination_by cs => cs.length
decreasing_by
  · have := length_splitLiteral_le rest
    simp only [List.length_cons]
    omega
  · have := length_afterBlock_le rest
    simp only [List.length_cons]
    omega
  · have := length_afterLine_le rest
    simp only [List.length_cons]
    omega
  · exact Nat.lt_succ_self _

/-- Taking the comments out of the first text leaves the second, whatever comes after it. -/
def Inert (text plain : List Char) : Prop :=
  ∀ rest, uncommented (text ++ rest) = plain ++ uncommented rest

theorem uncommented_cons {c : Char} (hquote : c ≠ '"') (hslash : c ≠ '/') (rest : List Char) :
    uncommented (c :: rest) = c :: uncommented rest := by
  rw [uncommented]
  all_goals simp_all

theorem uncommented_divide (rest : List Char) :
    uncommented ('/' :: ' ' :: rest) = '/' :: ' ' :: uncommented rest := by
  have hblank := uncommented_cons (c := ' ') (by decide) (by decide) rest
  rw [uncommented, hblank]
  all_goals simp

/-! ### String literals -/

theorem splitLiteral_cons {c : Char} (hquote : c ≠ '"') (hbackslash : c ≠ '\\')
    (rest : List Char) :
    splitLiteral (c :: rest) = (c :: (splitLiteral rest).1, (splitLiteral rest).2) := by
  rw [splitLiteral]
  all_goals simp_all

theorem splitLiteral_hexDigit (n : Nat) (rest : List Char) :
    splitLiteral (hexDigit (n % 16) :: rest) =
      (hexDigit (n % 16) :: (splitLiteral rest).1, (splitLiteral rest).2) := by
  have hall : ∀ d : Fin 16, hexDigit d ≠ '"' ∧ hexDigit d ≠ '\\' := by decide
  obtain ⟨hquote, hbackslash⟩ := hall ⟨n % 16, Nat.mod_lt n (by decide)⟩
  exact splitLiteral_cons hquote hbackslash rest

theorem splitLiteral_escapeChar (c : Char) (rest : List Char) :
    splitLiteral (escapeChar c ++ rest) =
      (escapeChar c ++ (splitLiteral rest).1, (splitLiteral rest).2) := by
  rcases escapeChar_cases c with ⟨letter, hescape, -⟩ | ⟨-, hescape⟩ | h
  · rw [hescape]
    rfl
  · have hescaped (cs : List Char) : splitLiteral ('\\' :: 'u' :: cs) =
        ('\\' :: 'u' :: (splitLiteral cs).1, (splitLiteral cs).2) := rfl
    rw [hescape]
    simp only [fourHexDigits, List.cons_append, List.nil_append, hescaped, splitLiteral_hexDigit]
  · obtain ⟨hquote, hbackslash, -, hescape⟩ := h
    rw [hescape]
    exact splitLiteral_cons hquote hbackslash rest

theorem splitLiteral_escaped (cs rest : List Char) :
    splitLiteral (cs.flatMap escapeChar ++ '"' :: rest) =
      (cs.flatMap escapeChar ++ ['"'], rest) := by
  induction cs with
  | nil => rfl
  | cons c cs ih =>
    rw [List.flatMap_cons, List.append_assoc, splitLiteral_escapeChar, ih, List.append_assoc]

theorem inert_literal (value : List Char) : Inert (literal value) (literal value) := by
  intro rest
  unfold literal
  rw [List.cons_append, List.append_assoc, List.singleton_append, uncommented,
    splitLiteral_escaped]
  rfl

/-! ### Pieces without comments -/

theorem inert_of_not_mem {text : List Char} (hquote : '"' ∉ text) (hslash : '/' ∉ text) :
    Inert text text := by
  intro rest
  induction text with
  | nil => rfl
  | cons c text ih =>
    rw [List.mem_cons, not_or] at hquote hslash
    rw [List.cons_append, uncommented_cons (Ne.symm hquote.1) (Ne.symm hslash.1),
      ih hquote.2 hslash.2]
    rfl

theorem inert_of_isFixed {text : List Char} (h : text.all isFixed = true) : Inert text text := by
  rw [List.all_eq_true] at h
  apply inert_of_not_mem
  · intro hquote
    cases h '"' hquote
  · intro hslash
    cases h '/' hslash

theorem inert_newline (layout : Layout) (level : Nat) :
    Inert (layout.newline level) (layout.newline level) := by
  apply inert_of_not_mem <;> simp [Layout.newline]

theorem inert_operator (o : Operator) :
    Inert (o.symbol.toList ++ [' ']) (o.symbol.toList ++ [' ']) := by
  cases o with
  | divide => exact uncommented_divide
  | _ => exact inert_of_isFixed rfl

theorem compositional_inert : Compositional Inert where
  fixed _ h := inert_of_isFixed h
  operator := inert_operator
  literal := inert_literal
  append := by
    intro a b c d hab hcd rest
    rw [List.append_assoc, hab, hcd, List.append_assoc]

theorem inert_of_isWord {text : List Char} (h : isWord text = true) : Inert text text := by
  simp only [isWord, Bool.and_eq_true, List.all_eq_true] at h
  apply inert_of_not_mem
  · intro hquote
    cases h.2 '"' hquote
  · intro hslash
    cases h.2 '/' hslash

/-! ### Comments -/

theorem afterBlock_cons {c : Char} {rest : List Char} (h : c = '*' → rest.head? ≠ some '/') :
    afterBlock (c :: rest) = afterBlock rest := by
  rw [afterBlock]
  all_goals
    rintro left rfl rfl
    exact h rfl rfl

theorem afterBlock_append {text : List Char} (h : ¬ ['*', '/'] <:+: text) (rest : List Char) :
    afterBlock (text ++ ("*/ ".toList ++ rest)) = rest := by
  induction text with
  | nil => rfl
  | cons c text ih =>
    have htext : ¬ ['*', '/'] <:+: text := fun hinfix => h (List.infix_cons hinfix)
    -- a star at the very end of the text is followed by the star of the closing mark
    have hnext : c = '*' → (text ++ ("*/ ".toList ++ rest)).head? ≠ some '/' := by
      rintro rfl hhead
      cases text with
      | nil => cases hhead
      | cons d text =>
        obtain rfl : d = '/' := by simpa using hhead
        exact h ⟨[], text, rfl⟩
    rw [List.cons_append, afterBlock_cons hnext, ih htext]

theorem afterLine_append {text : List Char} (h : '\n' ∉ text) (layout : Layout) (level : Nat)
    {rest : List Char} (hrest : rest.head? ≠ some ' ') :
    afterLine (text ++ (layout.newline level ++ rest)) = rest := by
  have htext : ∀ c ∈ text, (c != '\n') = true := by
    intro c hc
    rw [bne_iff_ne]
    rintro rfl
    exact h hc
  have hblanks : ∀ c ∈ List.replicate (level * layout.indentWidth) ' ', (c == ' ') = true := by
    intro c hc
    rw [beq_iff_eq]
    exact (List.mem_replicate.mp hc).2
  have hhead : ∀ c ∈ rest.head?, (c == ' ') = false := by
    intro c hc
    rw [beq_eq_false_iff_ne]
    rintro rfl
    exact hrest hc
  rw [afterLine, (takeWhile_append_of_head htext (by simp [Layout.newline])).2]
  exact (takeWhile_append_of_head hblanks hhead).2

theorem uncommented_block (cs : List Char) :
    uncommented ("/*".toList ++ cs) = uncommented (afterBlock cs) := by
  change uncommented ('/' :: '*' :: cs) = _
  rw [uncommented]

theorem uncommented_line (cs : List Char) :
    uncommented ("//".toList ++ cs) = uncommented (afterLine cs) := by
  change uncommented ('/' :: '/' :: cs) = _
  rw [uncommented]

end Text

open Text

/-- The comment ends where it is meant to end: no `*/` in a block comment, no line break in a line
comment. -/
def Comment.Contained (comment : Comment) : Prop :=
  match comment.style with
  | .block => ¬ ['*', '/'] <:+: comment.text.toList
  | .line => '\n' ∉ comment.text.toList

instance : DecidablePred Comment.Contained
  | ⟨.block, text⟩ => inferInstanceAs (Decidable (¬ ['*', '/'] <:+: text.toList))
  | ⟨.line, text⟩ => inferInstanceAs (Decidable ('\n' ∉ text.toList))

theorem Comment.uncommented_render {comment : Comment} (h : comment.Contained) (layout : Layout)
    (level : Nat) {rest : List Char} (hrest : rest.head? ≠ some ' ') :
    uncommented (comment.render layout level ++ rest) = uncommented rest := by
  rcases comment with ⟨style, text⟩
  cases style with
  | block =>
    simp only [render, List.append_assoc]
    rw [uncommented_block, afterBlock_append h]
  | line =>
    simp only [render, List.append_assoc]
    rw [uncommented_line, afterLine_append h layout level hrest]

theorem Comment.head?_render (comment : Comment) (layout : Layout) (level : Nat)
    (rest : List Char) : (comment.render layout level ++ rest).head? = some '/' := by
  rcases comment with ⟨style, text⟩
  cases style <;> rfl

theorem Node.uncommented_leading {comments : List Comment} (h : ∀ c ∈ comments, c.Contained)
    (layout : Layout) (level : Nat) {rest : List Char} (hrest : rest.head? ≠ some ' ') :
    uncommented (leading layout level comments ++ rest) = uncommented rest := by
  unfold leading
  split
  · induction comments with
    | nil => rfl
    | cons c comments ih =>
      have hmore : (comments.flatMap (Comment.render layout level) ++ rest).head? ≠ some ' ' := by
        cases comments with
        | nil => exact hrest
        | cons d comments =>
          rw [List.flatMap_cons, List.append_assoc, Comment.head?_render]
          decide
      rw [List.flatMap_cons, List.append_assoc,
        Comment.uncommented_render (h c List.mem_cons_self) layout level hmore,
        ih fun x hx => h x (List.mem_cons_of_mem c hx)]
  · rfl

/-! ### Where a text begins -/

namespace Text

/-- The text begins with a character that is no blank. -/
def Flush (text : List Char) : Prop := ∃ c ∈ text.head?, c ≠ ' '

variable {text : List Char}

theorem Flush.append (h : Flush text) (rest : List Char) : Flush (text ++ rest) := by
  obtain ⟨c, hc, hblank⟩ := h
  refine ⟨c, ?_, hblank⟩
  rw [List.head?_append, hc]
  rfl

theorem Flush.head?_ne (h : Flush text) : text.head? ≠ some ' ' := by
  obtain ⟨c, hc, hblank⟩ := h
  rw [hc]
  exact fun heq => hblank (Option.some.inj heq)

theorem flush_intercalate {separator : List Char} {parts : List (List Char)} (h : Flush text) :
    Flush (List.intercalate separator (text :: parts)) := by
  rw [Form.intercalate_cons_eq]
  exact h.append _

theorem flush_of_isWord (h : isWord text = true) : Flush text := by
  cases text with
  | nil => cases h
  | cons c cs =>
    simp only [isWord, List.all_cons, Bool.and_eq_true] at h
    refine ⟨c, rfl, ?_⟩
    rintro rfl
    cases h.2.1

end Text

theorem Form.flush_render {α : Type} {text : α → Nat → List Char} {form : Form α} (layout : Layout)
    (level : Nat) (hkind : form.kind ≠ .sourceFile)
    (hwords : ∀ w ∈ form.words, isWord w.toList = true)
    (h : ∀ a ∈ form.children, Flush (text a level)) :
    Flush ((form.map text).render layout level) := by
  cases form with
  | sourceFile => exact absurd rfl hkind
  | expressionStatement part =>
    exact (h part (by simp [children])).append _
  | shorthandProperty name => exact h name (by simp [children])
  | labeledStatement first _ | propertyAssignment first _ | propertyAccess first _ =>
    exact ((h first (by simp [children])).append _).append _
  | parameter name _ | variableDeclaration name _ =>
    exact (h name (by simp [children])).append _
  | callExpression callee _ =>
    exact (((h callee (by simp [children])).append _).append _).append _
  | binaryExpression left _ _ =>
    exact ((((h left (by simp [children])).append _).append _).append _).append _
  | identifier word | numericLiteral word =>
    exact flush_of_isWord (hwords word (by simp [words]))
  | block parts | objectBindingPattern parts | objectLiteral parts =>
    cases parts <;> exact ⟨'{', rfl, by decide⟩
  | variableStatement binding _ => cases binding <;> exact ⟨_, rfl, by decide⟩
  | booleanLiteral value => cases value <;> exact ⟨_, rfl, by decide⟩
  | _ => exact ⟨_, rfl, by decide⟩

namespace Node

/-- The node has only such children as may stand there, its name or number is a word, and its
comments end where they are meant to end. -/
structure Legal (n : Node) : Prop where
  fits : n.fits = true
  words : ∀ w ∈ n.form.words, isWord w.toList = true
  comments : ∀ c ∈ n.comments, c.Contained

variable {n : Node}

theorem Legal.kind_ne {c : Node} (h : n.Legal) (hc : c ∈ n.children) : c.kind ≠ .sourceFile := by
  have hsorts : ∀ q ∈ Kind.sorts, ∀ k, q k = true → k ≠ .sourceFile := by
    rintro q hq _ hk rfl
    have hnone : ∀ q ∈ Kind.sorts, q .sourceFile = false := by decide
    rw [hnone q hq] at hk
    cases hk
  exact Form.forall_children_of_fits hsorts h.fits c hc

theorem flush_leading {text : List Char} (h : Flush text) (layout : Layout) (level : Nat)
    (comments : List Comment) : Flush (leading layout level comments ++ text) := by
  unfold leading
  split
  · cases comments with
    | nil => exact h
    | cons c comments =>
      rw [List.flatMap_cons, List.append_assoc]
      exact ⟨'/', c.head?_render layout level _, by decide⟩
  · exact h

theorem flush_render (h : n.Everywhere Legal) (hkind : n.kind ≠ .sourceFile) (layout : Layout)
    (level : Nat) : Flush (n.render layout level) := by
  induction n using Node.induction with
  | step n ih =>
    rw [render_eq]
    apply flush_leading
    apply Form.flush_render layout level hkind h.root.words
    intro c hc
    exact ih c hc (h.child hc) (h.root.kind_ne hc)

theorem flush_render_form (h : n.Everywhere Legal) (hkind : n.kind ≠ .sourceFile) (layout : Layout)
    (level : Nat) : Flush ((n.form.map (render layout)).render layout level) :=
  Form.flush_render layout level hkind h.root.words
    fun _ hc => flush_render (h.child hc) (h.root.kind_ne hc) layout level

/-- Behind the comments of a node no blank follows, not even if the node is an empty file. -/
theorem head?_render_form (h : n.Everywhere Legal) (layout : Layout) (level : Nat) :
    ((n.form.map (render layout)).render layout level).head? ≠ some ' ' := by
  by_cases hkind : n.kind = .sourceFile
  · rcases n with ⟨form, span, comments⟩
    cases form with
    | sourceFile statements =>
      cases statements with
      | nil =>
        intro hblank
        cases hblank
      | cons s statements =>
        have hs : s ∈ (⟨.sourceFile (s :: statements), span, comments⟩ : Node).children :=
          List.mem_cons_self
        have hflush := flush_render (h.child hs) (h.root.kind_ne hs) layout level
        exact (flush_intercalate hflush).head?_ne
    | _ => cases hkind
  · exact (flush_render_form h hkind layout level).head?_ne

/-- Without the comments of the node itself: whether those can be taken out depends on what follows
them, which at the root may be nothing at all. -/
theorem inert_render_form (width : Nat) (h : n.Everywhere Legal) (level : Nat) :
    Inert ((n.form.map (render ⟨width, true⟩)).render ⟨width, true⟩ level)
      ((n.form.map (render ⟨width, false⟩)).render ⟨width, false⟩ level) := by
  induction n using Node.induction generalizing level with
  | step n ih =>
    apply Form.related_render compositional_inert
    · intro k
      exact inert_newline ⟨width, true⟩ (level + k)
    · intro w hw
      exact inert_of_isWord (h.root.words w hw)
    · intro c hc k rest
      have hlegal := h.child hc
      -- a child is no file, so its comments are followed by text of its own
      have hflush := flush_render_form hlegal (h.root.kind_ne hc) ⟨width, true⟩ (level + k)
      rw [render_eq, render_eq, List.append_assoc,
        uncommented_leading hlegal.root.comments _ _ (hflush.append rest).head?_ne,
        ih c hc hlegal]
      rfl

theorem uncommented_print (width : Nat) {n : Node} (hfits : n.WellFormed)
    (hwords : n.Everywhere fun m => ∀ w ∈ m.form.words, isWord w.toList = true)
    (hcomments : n.Everywhere fun m => ∀ c ∈ m.comments, c.Contained) :
    uncommented (n.print ⟨width, true⟩).toList = (n.print ⟨width, false⟩).toList := by
  have h : n.Everywhere Legal := fun m hm => ⟨hfits m hm, hwords m hm, hcomments m hm⟩
  have hform := inert_render_form width h 0 []
  rw [List.append_nil, uncommented, List.append_nil] at hform
  rw [print, print, String.toList_ofList, String.toList_ofList, render_eq, render_eq,
    uncommented_leading h.root.comments _ _ (head?_render_form h _ _), hform]
  rfl

/-- A quotient whose divisor is led by comments that look like other things, and a string that looks
like comments. -/
def commentedQuotient : Node :=
  let divisor : Node := ⟨.identifier "b", Span.synthetic, [⟨.block, "\"*"⟩, ⟨.line, " /* "⟩]⟩
  let quotient : Node := ofForm (.binaryExpression (identifier "a") .divide divisor)
  let returned : Node := ofForm (.returnStatement (some (ofForm (.stringLiteral "/* \" // */"))))
  ofForm (.sourceFile [(block [ofForm (.expressionStatement quotient), returned]).addComment
    ⟨.line, "// \""⟩])

theorem uncommented_print_commentedQuotient :
    commentedQuotient.WellFormed ∧
      (commentedQuotient.Everywhere fun m => ∀ w ∈ m.form.words, isWord w.toList = true) ∧
      (commentedQuotient.Everywhere fun m => ∀ c ∈ m.comments, c.Contained) ∧
      commentedQuotient.print ⟨2, true⟩ ≠ commentedQuotient.print ⟨2, false⟩ ∧
      uncommented (commentedQuotient.print ⟨2, true⟩).toList =
        (commentedQuotient.print ⟨2, false⟩).toList :=
  have hfits : commentedQuotient.WellFormed := by decide
  have hwords : commentedQuotient.Everywhere fun m =>
      ∀ w ∈ m.form.words, isWord w.toList = true := by decide
  have hcomments : commentedQuotient.Everywhere fun m => ∀ c ∈ m.comments, c.Contained := by decide
  ⟨hfits, hwords, hcomments, by decide, uncommented_print 2 hfits hwords hcomments⟩

/-! ### Comments taken off the tree -/

/-- The tree with no comments at any of its nodes. -/
def withoutComments (n : Node) : Node := n.fold fun own form => ⟨form, own.span, []⟩

theorem withoutComments_eq (n : Node) :
    n.withoutComments = ⟨n.form.map withoutComments, n.span, []⟩ := by
  unfold withoutComments
  rw [fold_eq]

theorem render_withoutComments (width : Nat) (n : Node) (level : Nat) :
    n.withoutComments.render ⟨width, true⟩ level = n.render ⟨width, false⟩ level := by
  induction n using Node.induction generalizing level with
  | step n ih =>
    have hform : (n.form.map fun c => c.withoutComments.render ⟨width, true⟩).render ⟨width, true⟩
        level = (n.form.map (render ⟨width, false⟩)).render ⟨width, false⟩ level := by
      apply Form.related_render compositional_eq
      · intro k
        rfl
      · intro w _
        rfl
      · intro c hc k
        exact ih c hc (level + k)
    rw [withoutComments_eq, render_of_comments _ rfl, Form.map_map, hform, render_eq]
    rfl

theorem print_eq_print_withoutComments (width : Nat) (n : Node) :
    n.print ⟨width, false⟩ = n.withoutComments.print ⟨width, true⟩ := by
  unfold print
  rw [render_withoutComments]

end Node

end EntryTrace
