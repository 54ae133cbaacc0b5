import EntryTrace.Proofs.Everywhere
import EntryTrace.Proofs.Literals
import EntryTrace.Tree.Print

/-!
# Source text as tokens

Source text is scanned into words, string literals, operators and single marks; blanks only keep
tokens apart. Line breaks are marks of their own, since they tell a block from an object. The text
of a tree without comments scans to the tokens of the tree, at every indentation
(`Node.spells_render`): no two tokens that could run into one another stand side by side.
-/

namespace EntryTrace

set_option autoImplicit false

namespace Text

/-- The characters of names and numbers. Beyond ASCII no letters are told from other characters. -/
def isWordChar (c : Char) : Bool :=
  c.isAlphanum || c == '_' || c == '$' || decide (0x80 ≤ c.toNat)

def isWord (cs : List Char) : Bool := !cs.isEmpty && cs.all isWordChar

def isOperatorChar : Char → Bool
  | '+' | '-' | '*' | '/' | '=' | '<' | '>' => true
  | _ => false

end Text

inductive Token where
  | word (text : String)
  | text (value : String)
  | operator (o : Operator)
  | mark (c : Char)
  deriving DecidableEq, Repr

open Text in
/-- The tokens of a text. -/
def scan : List Char → List Token
  | [] => []
  | c :: cs =>
    if isWordChar c then
      .word (String.ofList (c :: cs.takeWhile isWordChar)) :: scan (cs.dropWhile isWordChar)
    else if isOperatorChar c then
      ((Operator.ofSymbol? (String.ofList (c :: cs.takeWhile isOperatorChar))).map
        Token.operator).toList ++ scan (cs.dropWhile isOperatorChar)
    else if c = '"' then
      match _ : readLiteral? cs with
      | some (value, rest) => .text (String.ofList value) :: scan rest
      | none => []
    else if c = ' ' then scan cs
    else .mark c :: scan cs
termination_by cs => cs.length
decreasing_by
  · exact Nat.lt_succ_of_le (List.dropWhile_suffix _).length_le
  · exact Nat.lt_succ_of_le (List.dropWhile_suffix _).length_le
  · rename_i hread
    exact Nat.lt_succ_of_lt (length_of_readLiteral? hread)
  · exact Nat.lt_succ_self _
  · exact Nat.lt_succ_self _

namespace Text

variable {cs rest : List Char}

theorem takeWhile_append_of_head {p : Char → Bool} (hcs : ∀ c ∈ cs, p c = true)
    (hrest : ∀ c ∈ rest.head?, p c = false) :
    (cs ++ rest).takeWhile p = cs ∧ (cs ++ rest).dropWhile p = rest := by
  rw [List.takeWhile_append_of_pos hcs, List.dropWhile_append_of_pos hcs]
  cases rest with
  | nil => simp
  | cons c rest => simp [hrest c rfl]

/-- The text does not begin inside a word. -/
def Apart (rest : List Char) : Prop := ∀ c ∈ rest.head?, isWordChar c = false

theorem apart_nil : Apart [] := by simp [Apart]

theorem apart_cons {c : Char} (h : isWordChar c = false) (rest : List Char) :
    Apart (c :: rest) := by
  simpa [Apart] using h

end Text

open Text

@[simp] theorem scan_nil : scan [] = [] := by
  rw [scan]

theorem scan_word {cs rest : List Char} (h : isWord cs = true) (hrest : Apart rest) :
    scan (cs ++ rest) = .word (String.ofList cs) :: scan rest := by
  cases cs with
  | nil => simp [isWord] at h
  | cons c cs =>
    simp only [isWord, List.isEmpty_cons, Bool.not_false, List.all_cons, Bool.true_and,
      Bool.and_eq_true, List.all_eq_true] at h
    obtain ⟨htake, hdrop⟩ := takeWhile_append_of_head h.2 hrest
    rw [List.cons_append, scan, if_pos h.1, htake, hdrop]

/-- The marks of the language. -/
def Text.isMark : Char → Bool
  | '{' | '}' | '(' | ')' | '[' | ']' | ',' | ':' | ';' | '.' | '\n' => true
  | _ => false

theorem scan_mark {c : Char} (h : isMark c = true) (rest : List Char) :
    scan (c :: rest) = .mark c :: scan rest := by
  have hclasses : isWordChar c = false ∧ isOperatorChar c = false ∧ c ≠ '"' ∧ c ≠ ' ' := by
    unfold isMark at h
    split at h
    all_goals first | decide | simp at h
  obtain ⟨hword, hoperator, hquote, hblank⟩ := hclasses
  rw [scan]
  simp [hword, hoperator, hquote, hblank]

theorem scan_blank (rest : List Char) : scan (' ' :: rest) = scan rest := by
  rw [scan]
  rfl

theorem scan_literal (cs rest : List Char) :
    scan (literal cs ++ rest) = .text (String.ofList cs) :: scan rest := by
  have hread := readLiteral?_escaped cs rest
  unfold literal
  rw [List.cons_append, List.append_assoc, List.singleton_append, scan,
    if_neg (show ¬ isWordChar '"' = true by decide),
    if_neg (show ¬ isOperatorChar '"' = true by decide), if_pos rfl]
  split
  · rename_i value left hvalue
    rw [hread] at hvalue
    cases hvalue
    rfl
  · rename_i hvalue
    rw [hread] at hvalue
    simp at hvalue

theorem scan_operator (o : Operator) (rest : List Char) :
    scan (o.symbol.toList ++ ' ' :: rest) = .operator o :: scan rest := by
  have hsymbol : Operator.ofSymbol? o.symbol = some o := by cases o <;> decide
  have hchars : o.symbol.toList ≠ [] ∧
      o.symbol.toList.all (fun c => isOperatorChar c && !isWordChar c) = true := by
    cases o <;> decide
  have hrest : ∀ c ∈ (' ' :: rest).head?, isOperatorChar c = false := by
    simp [isOperatorChar]
  have hofList : String.ofList o.symbol.toList = o.symbol := String.ofList_toList
  cases htext : o.symbol.toList with
  | nil => exact absurd htext hchars.1
  | cons c cs =>
    rw [htext] at hchars hofList
    simp only [List.all_cons, Bool.and_eq_true, List.all_eq_true, Bool.not_eq_true'] at hchars
    obtain ⟨-, hc, hcs⟩ := hchars
    obtain ⟨htake, hdrop⟩ := takeWhile_append_of_head (fun d hd => (hcs d hd).1) hrest
    rw [List.cons_append, scan, if_neg (by simp [hc.2]), if_pos hc.1, htake, hdrop, hofList,
      hsymbol, scan_blank]
    rfl

theorem scan_newline (layout : Layout) (level : Nat) (rest : List Char) :
    scan (layout.newline level ++ rest) = .mark '\n' :: scan rest := by
  have hblanks : ∀ k, scan (List.replicate k ' ' ++ rest) = scan rest := by
    intro k
    induction k with
    | zero => rfl
    | succ k ih => rw [List.replicate_succ, List.cons_append, scan_blank, ih]
  unfold Layout.newline
  rw [List.cons_append, scan_mark rfl, hblanks]

theorem scan_name {w : String} {rest : List Char} (h : isWord w.toList = true)
    (hrest : Apart rest) : scan (w.toList ++ rest) = .word w :: scan rest := by
  rw [scan_word h hrest, String.ofList_toList]

/-! ### Tokens of trees -/

namespace Form

variable {α : Type}

def separatedTokens (parts : List (List Token)) : List Token :=
  List.intercalate [.mark ','] parts

def afterTokens (lead : List Token) : Option (List Token) → List Token
  | none => []
  | some part => lead ++ part

def blockTokens : List (List Token) → List Token
  | [] => [.mark '{', .mark '}']
  | statements =>
    .mark '{' :: (statements.flatMap (.mark '\n' :: ·) ++ [.mark '\n', .mark '}'])

/-- The tokens of a form, from the tokens of what fills its slots. -/
def tokens : Form (List Token) → List Token
  | sourceFile statements => List.intercalate [.mark '\n'] statements
  | block statements => blockTokens statements
  | emptyStatement => [.mark ';']
  | expressionStatement expression => expression ++ [.mark ';']
  | labeledStatement label statement => label ++ .mark ':' :: statement
  | functionDeclaration name parameters body =>
    .word "function" :: (afterTokens [] name ++ .mark '(' :: (separatedTokens parameters ++
      .mark ')' :: body.getD [.mark ';']))
  | parameter name initial => name ++ afterTokens [.operator .assign] initial
  | objectBindingPattern elements => .mark '{' :: (separatedTokens elements ++ [.mark '}'])
  | arrayBindingPattern elements => .mark '[' :: (separatedTokens elements ++ [.mark ']'])
  | variableStatement binding declarations =>
    .word binding.keyword :: (separatedTokens declarations ++ [.mark ';'])
  | variableDeclaration name initial => name ++ afterTokens [.operator .assign] initial
  | returnStatement result => .word "return" :: (afterTokens [] result ++ [.mark ';'])
  | ifStatement condition consequent alternative =>
    .word "if" :: .mark '(' :: (condition ++ .mark ')' :: (consequent ++
      afterTokens [.word "else"] alternative))
  | whileStatement condition body => .word "while" :: .mark '(' :: (condition ++ .mark ')' :: body)
  | breakStatement label => .word "break" :: (afterTokens [] label ++ [.mark ';'])
  | continueStatement label => .word "continue" :: (afterTokens [] label ++ [.mark ';'])
  | identifier text => [.word text]
  | stringLiteral text => [.text text]
  | numericLiteral text => [.word text]
  | booleanLiteral value => [.word (if value then "true" else "false")]
  | nullLiteral => [.word "null"]
  | callExpression callee arguments =>
    callee ++ .mark '(' :: (separatedTokens arguments ++ [.mark ')'])
  | propertyAccess object property => object ++ .mark '.' :: property
  | binaryExpression left operator right => left ++ .operator operator :: right
  | objectLiteral properties => .mark '{' :: (separatedTokens properties ++ [.mark '}'])
  | propertyAssignment name value => name ++ .mark ':' :: value
  | shorthandProperty name => name

/-- Names and numbers are words. -/
def hasWords : Form α → Bool
  | identifier text => isWord text.toList
  | numericLiteral text => isWord text.toList
  | _ => true

end Form

/-- The text scans to the tokens, whatever comes after it that is no part of a word. -/
def Spells (text : List Char) (tokens : List Token) : Prop :=
  ∀ rest, Apart rest → scan (text ++ rest) = tokens ++ scan rest

namespace Form

variable {α : Type} {text : α → List Char} {toks : α → List Token}

theorem spells_intercalate {as : List α} {separator : List Char} {c : Char}
    (hseparator : ∀ rest, scan (separator ++ rest) = .mark c :: scan rest)
    (hapart : ∀ rest, Apart (separator ++ rest)) (h : ∀ a ∈ as, Spells (text a) (toks a)) :
    Spells (List.intercalate separator (as.map text))
      (List.intercalate [.mark c] (as.map toks)) := by
  intro rest hrest
  induction as with
  | nil => simp
  | cons a as ih =>
    have ha := h a List.mem_cons_self
    cases as with
    | nil => simpa using ha rest hrest
    | cons b bs =>
      have hbs := ih fun x hx => h x (List.mem_cons_of_mem a hx)
      simp only [List.map_cons, List.intercalate_cons_cons, List.append_assoc, List.cons_append,
        List.nil_append] at hbs ⊢
      rw [ha _ (hapart _), hseparator, hbs]

theorem spells_separated {as : List α} (h : ∀ a ∈ as, Spells (text a) (toks a)) :
    Spells (separated (as.map text)) (separatedTokens (as.map toks)) := by
  refine spells_intercalate ?_ ?_ h
  · intro rest
    rw [List.cons_append, List.singleton_append, scan_mark rfl, scan_blank]
  · intro rest
    exact apart_cons rfl _

/-- Of an empty and a filled pair of braces only the second has blanks inside. -/
theorem spells_braced {as : List α} (h : ∀ a ∈ as, Spells (text a) (toks a)) :
    Spells (braced (as.map text))
      (.mark '{' :: (separatedTokens (as.map toks) ++ [.mark '}'])) := by
  intro rest _
  cases as with
  | nil =>
    simp only [List.map_nil, braced, separatedTokens, List.intercalate_nil, List.nil_append,
      List.cons_append]
    rw [scan_mark rfl, scan_mark rfl]
  | cons a as =>
    have hparts := spells_separated h
    simp only [List.map_cons, braced, List.append_assoc, List.cons_append,
      List.nil_append] at hparts ⊢
    rw [scan_mark rfl, scan_blank, hparts _ (apart_cons rfl _), scan_blank, scan_mark rfl]

theorem apart_newline (layout : Layout) (level : Nat) (rest : List Char) :
    Apart (layout.newline level ++ rest) :=
  apart_cons rfl _

/-- Each line starts with its own break, so that nothing runs into the line before it. -/
theorem spells_lines {text : α → List Char} {as : List α} (layout : Layout) (level : Nat)
    (h : ∀ a ∈ as, Spells (text a) (toks a)) :
    Spells (as.flatMap fun a => layout.newline level ++ text a)
      (as.flatMap fun a => .mark '\n' :: toks a) := by
  intro rest hrest
  induction as with
  | nil => rfl
  | cons a as ih =>
    have ha := h a List.mem_cons_self
    have has := ih fun x hx => h x (List.mem_cons_of_mem a hx)
    have hapart : Apart ((as.flatMap fun a => layout.newline level ++ text a) ++ rest) := by
      cases as with
      | nil => exact hrest
      | cons b bs =>
        rw [List.flatMap_cons, List.append_assoc, List.append_assoc]
        exact apart_newline _ _ _
    rw [List.flatMap_cons, List.flatMap_cons, List.append_assoc, List.append_assoc, scan_newline,
      ha _ hapart, has, List.append_assoc]
    rfl

theorem spells_blockText {text : α → Nat → List Char} {as : List α} (layout : Layout) (level : Nat)
    (h : ∀ a ∈ as, Spells (text a (level + 1)) (toks a)) :
    Spells (blockText layout level (as.map text)) (blockTokens (as.map toks)) := by
  intro rest _
  cases as with
  | nil =>
    simp only [List.map_nil, blockText, blockTokens, List.cons_append, List.nil_append]
    rw [scan_mark rfl, scan_mark rfl]
  | cons a as =>
    have hlines := spells_lines layout (level + 1) h
    have htokens : blockTokens ((a :: as).map toks) =
        .mark '{' :: (((a :: as).flatMap fun a => .mark '\n' :: toks a) ++
          [.mark '\n', .mark '}']) := by
      simp [blockTokens, List.flatMap_map]
    rw [blockText_map layout level text (List.cons_ne_nil a as), htokens]
    simp only [List.cons_append, List.append_assoc, List.nil_append]
    rw [scan_mark rfl, hlines _ (apart_newline _ _ _), scan_newline, scan_mark rfl]

theorem scan_keyword {w : String} (h : isWord w.toList = true) (rest : List Char) :
    scan (w.toList ++ ' ' :: rest) = .word w :: scan rest := by
  rw [scan_name h (apart_cons rfl _), scan_blank]

theorem scan_while (rest : List Char) :
    scan ("while (".toList ++ rest) = .word "while" :: .mark '(' :: scan rest :=
  (scan_keyword (w := "while") rfl _).trans (congrArg _ (scan_mark (c := '(') rfl rest))

theorem scan_if (rest : List Char) :
    scan ("if (".toList ++ rest) = .word "if" :: .mark '(' :: scan rest :=
  (scan_keyword (w := "if") rfl _).trans (congrArg _ (scan_mark (c := '(') rfl rest))

theorem scan_else (rest : List Char) :
    scan (" else ".toList ++ rest) = [.word "else"] ++ scan rest :=
  (scan_blank _).trans (scan_keyword (w := "else") rfl rest)

theorem scan_assign (rest : List Char) :
    scan (" = ".toList ++ rest) = [.operator .assign] ++ scan rest :=
  (scan_blank _).trans (scan_operator .assign rest)

/-- An optional part is kept apart from what stands before it by its lead. -/
theorem spells_after {lead : List Char} {leadTokens : List Token} {o : Option α}
    (hlead : ∀ rest, scan (lead ++ rest) = leadTokens ++ scan rest)
    (h : ∀ a ∈ o.toList, Spells (text a) (toks a)) :
    Spells (after lead (o.map text)) (afterTokens leadTokens (o.map toks)) := by
  intro rest hrest
  cases o with
  | none => rfl
  | some a =>
    simp only [Option.map_some, after, afterTokens, List.append_assoc]
    rw [hlead, h a (by simp) rest hrest]

theorem apart_after {lead rest : List Char} (o : Option (List Char))
    (hlead : ∀ cs, Apart (lead ++ cs)) (hrest : Apart rest) : Apart (after lead o ++ rest) := by
  cases o with
  | none => exact hrest
  | some part =>
    rw [after, List.append_assoc]
    exact hlead _

theorem spells_render {text : α → Nat → List Char} {form : Form α} (layout : Layout) (level : Nat)
    (hwords : form.hasWords = true)
    (h : ∀ a ∈ form.children, ∀ level, Spells (text a level) (toks a)) :
    Spells ((form.map text).render layout level) (form.map toks).tokens := by
  have hat : ∀ a ∈ form.children, Spells (text a level) (toks a) := fun a ha => h a ha level
  intro rest hrest
  -- `render` and `tokens` are unfolded by computation: both read nothing but the constructor
  cases form with
  | block statements =>
    have hlines : ∀ a ∈ statements, Spells (text a (level + 1)) (toks a) :=
      fun a ha => h a ha (level + 1)
    exact spells_blockText layout level hlines rest hrest
  | objectBindingPattern parts | objectLiteral parts =>
    have hparts : ∀ a ∈ parts, Spells (text a level) (toks a) := hat
    dsimp only [map, render, tokens]
    simp only [List.map_map, Function.comp_def]
    exact spells_braced hparts rest hrest
  | sourceFile statements =>
    dsimp only [map, render, tokens]
    simp only [List.map_map, Function.comp_def]
    exact spells_intercalate (c := '\n') (scan_newline layout level)
      (apart_newline layout level) hat rest hrest
  | identifier text | numericLiteral text =>
    dsimp only [map, render, tokens]
    exact scan_name (w := text) hwords hrest
  | stringLiteral text =>
    dsimp only [map, render, tokens]
    simp only [scan_literal, String.ofList_toList, List.cons_append, List.nil_append]
  | booleanLiteral value =>
    cases value
    · exact scan_name (w := "false") rfl hrest
    · exact scan_name (w := "true") rfl hrest
  | nullLiteral => exact scan_name (w := "null") rfl hrest
  | emptyStatement => exact scan_mark (c := ';') rfl rest
  | shorthandProperty name => exact hat name (by simp [children]) rest hrest
  | expressionStatement expression =>
    dsimp only [map, render, tokens]
    simp only [List.append_assoc, List.cons_append, List.nil_append]
    rw [hat expression (by simp [children]) _ (apart_cons rfl _), scan_mark rfl]
  | labeledStatement name value | propertyAssignment name value =>
    dsimp only [map, render, tokens]
    simp only [List.append_assoc, List.cons_append, List.nil_append]
    rw [hat name (by simp [children]) _ (apart_cons rfl _), scan_mark rfl, scan_blank,
      hat value (by simp [children]) rest hrest]
  | propertyAccess object property =>
    dsimp only [map, render, tokens]
    simp only [List.append_assoc, List.cons_append, List.nil_append]
    rw [hat object (by simp [children]) _ (apart_cons rfl _), scan_mark rfl,
      hat property (by simp [children]) rest hrest]
  | binaryExpression left operator right =>
    dsimp only [map, render, tokens]
    simp only [List.append_assoc, List.cons_append, List.nil_append]
    rw [hat left (by simp [children]) _ (apart_cons rfl _), scan_blank, scan_operator,
      hat right (by simp [children]) rest hrest]
  | arrayBindingPattern elements =>
    have helements : Spells (separated (elements.map fun a => text a level))
      (separatedTokens (elements.map toks)) := spells_separated hat
    dsimp only [map, render, tokens]
    simp only [List.map_map, Function.comp_def, List.append_assoc,
      List.cons_append, List.nil_append]
    rw [scan_mark rfl, helements _ (apart_cons rfl _), scan_mark rfl]
  | callExpression callee arguments =>
    have harguments : Spells (separated (arguments.map fun a => text a level))
      (separatedTokens (arguments.map toks)) :=
      spells_separated fun a ha => hat a (List.mem_cons_of_mem callee ha)
    dsimp only [map, render, tokens]
    simp only [List.map_map, Function.comp_def, List.append_assoc,
      List.cons_append, List.nil_append]
    rw [hat callee (by simp [children]) _ (apart_cons rfl _), scan_mark rfl,
      harguments _ (apart_cons rfl _), scan_mark rfl]
  | variableStatement binding declarations =>
    have hkeyword : isWord binding.keyword.toList = true := by cases binding <;> rfl
    have hdeclarations : Spells (separated (declarations.map fun a => text a level))
      (separatedTokens (declarations.map toks)) := spells_separated hat
    dsimp only [map, render, tokens]
    simp only [List.map_map, Function.comp_def, List.append_assoc,
      List.cons_append, List.nil_append]
    rw [scan_keyword hkeyword, hdeclarations _ (apart_cons rfl _), scan_mark rfl]
  | parameter name initial | variableDeclaration name initial =>
    have hinitial : Spells (after " = ".toList (initial.map fun a => text a level))
      (afterTokens [.operator .assign] (initial.map toks)) :=
      spells_after scan_assign fun a ha => hat a (List.mem_cons_of_mem name ha)
    dsimp only [map, render, tokens]
    simp only [Option.map_map, Function.comp_def, List.append_assoc]
    rw [hat name (by simp [children]) _ (apart_after _ (fun _ => apart_cons rfl _) hrest),
      hinitial rest hrest]
  | returnStatement part | breakStatement part | continueStatement part =>
    have hpart : Spells (after [' '] (part.map fun a => text a level))
      (afterTokens [] (part.map toks)) := spells_after scan_blank hat
    dsimp only [map, render, tokens]
    simp only [Option.map_map, Function.comp_def, List.append_assoc,
      List.cons_append, List.nil_append]
    rw [scan_name rfl (apart_after _ (fun _ => apart_cons rfl _) (apart_cons rfl _)),
      hpart _ (apart_cons rfl _), scan_mark rfl]
  | whileStatement condition body =>
    dsimp only [map, render, tokens]
    simp only [List.append_assoc, List.cons_append, List.nil_append]
    rw [scan_while, hat condition (by simp [children]) _ (apart_cons rfl _), scan_mark rfl,
      scan_blank, hat body (by simp [children]) rest hrest]
  | ifStatement condition consequent alternative =>
    have halternative : Spells (after " else ".toList (alternative.map fun a => text a level))
      (afterTokens [.word "else"] (alternative.map toks)) :=
      spells_after scan_else fun a ha => hat a (by simp_all [children])
    dsimp only [map, render, tokens]
    simp only [Option.map_map, Function.comp_def, List.append_assoc,
      List.cons_append, List.nil_append]
    rw [scan_if, hat condition (by simp [children]) _ (apart_cons rfl _), scan_mark rfl, scan_blank,
      hat consequent (by simp [children]) _ (apart_after _ (fun _ => apart_cons rfl _) hrest),
      halternative rest hrest]
  | functionDeclaration name parameters body =>
    have hname : Spells (after [' '] (name.map fun a => text a level))
      (afterTokens [] (name.map toks)) :=
      spells_after scan_blank fun a ha => hat a (by simp_all [children])
    have hparameters : Spells (separated (parameters.map fun a => text a level))
      (separatedTokens (parameters.map toks)) :=
      spells_separated fun a ha => hat a (by simp [children, ha])
    dsimp only [map, render, tokens]
    simp only [Option.map_map, List.map_map, Function.comp_def,
      List.append_assoc, List.cons_append, List.nil_append]
    rw [scan_name rfl (apart_after _ (fun _ => apart_cons rfl _) (apart_cons rfl _)),
      hname _ (apart_cons rfl _), scan_mark rfl, hparameters _ (apart_cons rfl _), scan_mark rfl]
    cases body with
    | none =>
      simp only [Option.map_none, Option.getD_none, List.cons_append, List.nil_append]
      rw [scan_mark rfl]
    | some body =>
      simp only [Option.map_some, Option.getD_some, List.cons_append]
      rw [scan_blank, hat body (by simp [children]) rest hrest]

end Form

namespace Node

def tokens (n : Node) : List Token := n.fold fun _ form => form.tokens

theorem tokens_eq (n : Node) : n.tokens = (n.form.map tokens).tokens := by
  unfold tokens
  rw [fold_eq]

/-- The node has no comments, and a name or number in it is a word. -/
def isLexical (n : Node) : Bool := n.comments.isEmpty && n.form.hasWords

/-- The text of a tree without comments scans to the tokens of the tree, at every indentation. -/
theorem spells_render {n : Node} (h : n.Everywhere fun m => m.isLexical = true) (layout : Layout)
    (level : Nat) : Spells (n.render layout level) n.tokens := by
  induction n using Node.induction generalizing level with
  | step n ih =>
    have hroot := h.root
    simp only [isLexical, Bool.and_eq_true, List.isEmpty_iff] at hroot
    have hleading : leading layout level n.comments = [] := by
      simp [leading, hroot.1]
    rw [render_eq, hleading, List.nil_append, tokens_eq]
    exact Form.spells_render layout level hroot.2 fun c hc level => ih c hc (h.child hc) level

theorem tokens_eq_of_print_eq {a b : Node} (ha : a.Everywhere fun m => m.isLexical = true)
    (hb : b.Everywhere fun m => m.isLexical = true) {layout : Layout}
    (h : a.print layout = b.print layout) : a.tokens = b.tokens := by
  have htext : a.render layout 0 = b.render layout 0 := String.ofList_injective h
  have hscan : scan (a.render layout 0 ++ []) = scan (b.render layout 0 ++ []) := by rw [htext]
  rw [spells_render ha layout 0 [] apart_nil, spells_render hb layout 0 [] apart_nil,
    scan_nil, List.append_nil, List.append_nil] at hscan
  exact hscan

end Node

end EntryTrace
