import EntryTrace.Proofs.ExpressionReader

/-!
# Reading statements

The first tokens of a statement tell of what kind it is. Words are told apart by a table of
keywords; a pair of braces is an object where an expression goes on after it and a block where it
does not; an `else` goes to the statement read last. A grouped tree whose names are neither keywords nor numerals
is given back (`Reader.statement_tokens`).
-/

namespace EntryTrace

set_option autoImplicit false

/-- The words that have a meaning of their own. -/
inductive Keyword where
  | function
  | declare (binding : Binding)
  | answer
  | test
  | otherwise
  | loop
  | leave
  | resume
  | truth (value : Bool)
  | null
  deriving DecidableEq, Repr

namespace Keyword

def text : Keyword → String
  | function => "function"
  | declare binding => binding.keyword
  | answer => "return"
  | test => "if"
  | otherwise => "else"
  | loop => "while"
  | leave => "break"
  | resume => "continue"
  | truth value => if value then "true" else "false"
  | null => "null"

def all : List Keyword :=
  [function, declare .functionScoped, declare .blockScoped, declare .constant, answer, test,
    otherwise, loop, leave, resume, truth true, truth false, null]

def ofWord? (word : String) : Option Keyword := all.find? fun k => k.text == word

/-- The keyword is an expression by itself. -/
def isLiteral : Keyword → Bool
  | truth _ | null => true
  | _ => false

theorem ofWord?_text (k : Keyword) : ofWord? k.text = some k := by
  cases k with
  | declare binding => cases binding <;> rfl
  | truth value => cases value <;> rfl
  | _ => rfl

theorem text_of_ofWord? {word : String} {k : Keyword} (h : ofWord? word = some k) :
    k.text = word := by
  have hk := List.find?_some h
  exact beq_iff_eq.mp hk

end Keyword

namespace Text

def isNumeral (word : String) : Bool := !word.toList.isEmpty && word.toList.all Char.isDigit

/-- A word that is neither a keyword nor a numeral. -/
def isName (word : String) : Bool :=
  isWord word.toList && (Keyword.ofWord? word).isNone && !isNumeral word

theorem ofWord?_of_isNumeral {word : String} (h : isNumeral word = true) :
    Keyword.ofWord? word = none := by
  cases hword : Keyword.ofWord? word with
  | none => rfl
  | some k =>
    rw [← Keyword.text_of_ofWord? hword] at h
    cases k with
    | declare binding => cases binding <;> cases h
    | truth value => cases value <;> cases h
    | _ => cases h

end Text

namespace Form

/-- What a word is as an expression. -/
def ofWord (word : String) : Form Node :=
  match Keyword.ofWord? word with
  | some (.truth value) => booleanLiteral value
  | some .null => nullLiteral
  | _ => if Text.isNumeral word then numericLiteral word else identifier word

/-- Names are no keywords and no numerals, and numbers are numerals. -/
def hasPlainWords {α : Type} : Form α → Bool
  | identifier text => Text.isName text
  | numericLiteral text => Text.isNumeral text
  | _ => true

theorem hasPlainWords_map {α β : Type} (f : α → β) (form : Form α) :
    (form.map f).hasPlainWords = form.hasPlainWords := by
  cases form <;> rfl

theorem hasWords_of_hasPlainWords {α : Type} {form : Form α} (h : form.hasPlainWords = true) :
    form.hasWords = true := by
  cases form with
  | identifier text =>
    simp only [hasPlainWords, Text.isName, Bool.and_eq_true] at h
    exact h.1.1
  | numericLiteral text =>
    simp only [hasPlainWords, Text.isNumeral, Bool.and_eq_true, List.all_eq_true] at h
    simp only [hasWords, Text.isWord, Bool.and_eq_true, List.all_eq_true]
    refine ⟨h.1, fun c hc => ?_⟩
    simp [Text.isWordChar, Char.isAlphanum, h.2 c hc]
  | _ => rfl

theorem ofWord_eq {form : Form Node} (h : form.hasPlainWords = true) {word : String}
    (hword : word ∈ form.word?) : ofWord word = form := by
  cases form with
  | identifier text =>
    cases hword
    simp only [hasPlainWords, Text.isName, Bool.and_eq_true, Option.isNone_iff_eq_none,
      Bool.not_eq_true'] at h
    simp [ofWord, h.1.2, h.2]
  | numericLiteral text =>
    cases hword
    simp only [hasPlainWords] at h
    simp [ofWord, Text.ofWord?_of_isNumeral h, h]
  | booleanLiteral value =>
    cases hword
    cases value <;> rfl
  | nullLiteral =>
    cases hword
    rfl
  | _ => cases hword

end Form

namespace Reader

def expect (c : Char) (ts : List Token) : Option (List Token) :=
  if ts.head? = some (.mark c) then some ts.tail else none

def name? : List Token → Option Node × List Token
  | .word name :: ts => (some (.identifier name), ts)
  | ts => (none, ts)

/-- An expression, if there is one before the end of the statement. -/
def result? (ts : List Token) : Option (Option Node × List Token) :=
  if ts.head? = some (.mark ';') then some (none, ts)
  else do
    let (result, ts) ← expression Form.ofWord ts
    some (some result, ts)

def condition (ts : List Token) : Option (Node × List Token) := do
  let ts ← expect '(' ts
  let (value, ts) ← expression Form.ofWord ts
  let ts ← expect ')' ts
  some (value, ts)

/-- The name of a function and its parameters. -/
def signature (ts : List Token) : Option ((Option Node × List Node) × List Token) := do
  let left ← expect '(' (name? ts).2
  let (parameters, left) ← items Form.ofWord .parameter ')' left
  some (((name? ts).1, parameters), left)

/-- The first token goes on with an expression that stands as a statement, or ends it. -/
def continues : List Token → Bool
  | .operator _ :: _ => true
  | .mark c :: _ => c == '.' || c == '(' || c == ';'
  | _ => false

/-- The statement that begins here is an expression. -/
def isSimple : List Token → Bool
  | .text _ :: _ => true
  | .word w :: ts =>
    match Keyword.ofWord? w with
    | some k => k.isLiteral
    | none => ts.head? != some (.mark ':')
  | .mark '{' :: .mark '\n' :: _ => false
  | .mark '{' :: .mark '}' :: ts => continues ts
  | .mark '{' :: _ => true
  | _ => false

mutual

def statement (ts : List Token) : Option (Node × List Token) :=
  if isSimple ts then do
    let (value, left) ← expression Form.ofWord ts
    let left ← expect ';' left
    some (.ofForm (.expressionStatement value), left)
  else
    match ts with
    | .mark ';' :: ts => some (.ofForm .emptyStatement, ts)
    | .mark '{' :: ts => do
      let (statements, left) ← lines ts
      some (.block statements, left)
    | .word word :: ts =>
      match Keyword.ofWord? word with
      | some k => directed k ts
      | none =>
        match ts with
        | .mark ':' :: ts => do
          let (body, left) ← statement ts
          some (.labeled word body, left)
        | _ => none
    | _ => none
termination_by (ts.length, 0)

/-- The rest of a statement that begins with a keyword. -/
def directed (k : Keyword) (ts : List Token) : Option (Node × List Token) :=
  match k with
  | .function =>
    goOn ts (signature ts) fun head left _ => do
      let (body, left) ← body? left
      some (.ofForm (.functionDeclaration head.1 head.2 body), left)
  | .declare binding => do
    let (declarations, left) ← items Form.ofWord .declaration ';' ts
    some (.ofForm (.variableStatement binding declarations), left)
  | .answer => do
    let (result, left) ← result? ts
    let left ← expect ';' left
    some (.ofForm (.returnStatement result), left)
  | .test =>
    goOn ts (condition ts) fun value left _ =>
      goOn ts (statement left) fun consequent left _ => do
        let (alternative, left) ← alternative? left
        some (.ofForm (.ifStatement value consequent alternative), left)
  | .loop =>
    goOn ts (condition ts) fun value left _ => do
      let (body, left) ← statement left
      some (.ofForm (.whileStatement value body), left)
  | .leave => do
    let left ← expect ';' (name? ts).2
    some (.ofForm (.breakStatement (name? ts).1), left)
  | .resume => do
    let left ← expect ';' (name? ts).2
    some (.ofForm (.continueStatement (name? ts).1), left)
  | _ => none
termination_by (ts.length, 0)

def alternative? (ts : List Token) : Option (Option Node × List Token) :=
  match ts with
  | .word "else" :: ts => do
    let (alternative, left) ← statement ts
    some (some alternative, left)
  | ts => some (none, ts)
termination_by (ts.length, 0)

def body? (ts : List Token) : Option (Option Node × List Token) :=
  if ts.head? = some (.mark ';') then some (none, ts.tail)
  else do
    let (body, left) ← statement ts
    some (some body, left)
termination_by (ts.length, 1)

/-- The statements of a block, each after a line break, with what closes the block. -/
def lines (ts : List Token) : Option (List Node × List Token) :=
  match ts with
  | .mark '}' :: ts => some ([], ts)
  | .mark '\n' :: ts =>
    if ts.head? = some (.mark '}') then some ([], ts.tail)
    else
      goOn (.mark '\n' :: ts) (statement ts) fun first left _ => do
        let (others, left) ← lines left
        some (first :: others, left)
  | _ => none
termination_by (ts.length, 0)

end

/-! ### Trees that are given back -/

/-- The node has only such children as may stand there, grouped as they are read, and its names and
numbers cannot be taken for anything else. -/
structure Plain (n : Node) : Prop where
  fits : n.fits = true
  grouped : n.isGrouped = true
  words : n.form.hasPlainWords = true

variable {n : Node} {ts : List Token}

theorem Plain.legible (h : Plain n) : Legible Form.ofWord n :=
  ⟨h.fits, h.grouped, fun _ hw => Form.ofWord_eq h.words hw⟩

theorem wellFormed_of_plain (h : n.Everywhere Plain) : n.WellFormed := h.imp fun _ hm => hm.fits

theorem returns_of_plain (h : n.Everywhere Plain) : Returns Form.ofWord n :=
  returns (h.imp fun _ hm => hm.legible)

theorem expect_mark (c : Char) (ts : List Token) : expect c (.mark c :: ts) = some ts :=
  if_pos rfl

theorem isSimple_name {w : String} (hw : Keyword.ofWord? w = none) (hts : continues ts = true) :
    isSimple (.word w :: ts) = true := by
  have hcolon : ts.head? ≠ some (.mark ':') := by
    cases ts with
    | nil => cases hts
    | cons t ts =>
      intro h
      rw [Option.some.inj h] at hts
      cases hts
  rw [isSimple, hw]
  exact bne_iff_ne.mpr hcolon

theorem isSimple_keyword (k : Keyword) (ts : List Token) :
    isSimple (.word k.text :: ts) = k.isLiteral := by
  rw [isSimple, k.ofWord?_text]

theorem isSimple_brace {t : Token} (ht : t.opens = true) (ts : List Token) :
    isSimple (.mark '{' :: t :: ts) = true := by
  rw [isSimple]
  · intro us hus
    cases hus
    cases ht
  · intro us hus
    cases hus
    cases ht

theorem separatedTokens_cons (first : List Token) (others : List (List Token)) :
    ∃ rest, Form.separatedTokens (first :: others) = first ++ rest := by
  cases others with
  | nil => exact ⟨[], by simp [Form.separatedTokens]⟩
  | cons second others =>
    unfold Form.separatedTokens
    rw [List.intercalate_cons_cons, List.append_assoc]
    exact ⟨_, rfl⟩

theorem isSimple_tokens (h : n.Everywhere Plain) (hkind : n.kind.isExpression = true)
    (hts : continues ts = true) : isSimple (n.tokens ++ ts) = true := by
  induction n using Node.induction generalizing ts with
  | step n ih =>
    obtain ⟨hfits, hgrouped, hwords⟩ := h.root
    rw [Node.tokens_eq]
    rcases n with ⟨form, span, comments⟩
    cases form with
    | stringLiteral => rfl
    | identifier text =>
      simp only [Form.hasPlainWords, Text.isName, Bool.and_eq_true,
        Option.isNone_iff_eq_none] at hwords
      exact isSimple_name hwords.1.2 hts
    | numericLiteral text => exact isSimple_name (Text.ofWord?_of_isNumeral hwords) hts
    | booleanLiteral value => exact isSimple_keyword (.truth value) ts
    | nullLiteral => exact isSimple_keyword .null ts
    | callExpression callee | propertyAccess callee | binaryExpression callee =>
      simp only [Node.fits, Form.map, Form.fits, Bool.and_eq_true] at hfits
      simp only [Form.map, Form.tokens, List.append_assoc, List.cons_append]
      exact ih callee List.mem_cons_self (h.child List.mem_cons_self) hfits.1 rfl
    | objectLiteral properties =>
      cases properties with
      | nil => exact hts
      | cons first others =>
        simp only [Node.fits, Form.map, Form.fits, List.map_cons, List.all_cons,
          Bool.and_eq_true] at hfits
        obtain ⟨t, us, htokens, ht⟩ := Node.tokens_eq_cons
          (wellFormed_of_plain (h.child List.mem_cons_self))
          (Slot.member.opens_of_admits hfits.1)
        obtain ⟨rest, hrest⟩ := separatedTokens_cons first.tokens (others.map Node.tokens)
        simp only [Form.map, Form.tokens, List.map_cons, hrest]
        simp only [htokens, List.cons_append]
        exact isSimple_brace ht _
    | _ => cases hkind

/-- The statement before these tokens is over, unless it takes the `else`. -/
def ends : List Token → Bool
  | [] => true
  | .mark c :: _ => c == '\n'
  | .word w :: _ => w == "else"
  | _ => false

theorem isSimple_block (statements : List Node) (hts : ends ts = true) :
    isSimple (Form.blockTokens (statements.map Node.tokens) ++ ts) = false := by
  cases statements with
  | nil =>
    change continues ts = false
    unfold ends at hts
    unfold continues
    split at hts <;> simp_all
  | cons => rfl

/-- The tokens of the statement are read as the statement, up to where it is over. -/
def ReturnsStatement (n : Node) : Prop :=
  ∀ ts, ends ts = true → (n.endsOpen = true → ts.head? ≠ some (.word "else")) →
    statement (n.tokens ++ ts) = some (n.bare, ts)

theorem head?_statement_append (hwf : n.WellFormed) (hkind : n.kind.isStatement = true)
    (ts : List Token) : (n.tokens ++ ts).head? ≠ some (.mark '}') := by
  by_cases hempty : n.kind = .emptyStatement
  · rw [Node.tokens_eq]
    rcases n with ⟨form, span, comments⟩
    cases form with
    | emptyStatement => simp [Form.map, Form.tokens]
    | _ => cases hempty
  · have hopens : n.kind.opens = true := by
      cases hk : n.kind <;> simp_all [Kind.opens, Kind.isStatement]
    exact Node.head?_tokens_append hwf hopens rfl ts

theorem lines_tokens {statements : List Node} (hwf : ∀ s ∈ statements, s.WellFormed)
    (hkind : ∀ s ∈ statements, s.kind.isStatement = true)
    (hreturns : ∀ s ∈ statements, ReturnsStatement s) (ts : List Token) :
    lines ((statements.map Node.tokens).flatMap (.mark '\n' :: ·) ++
        .mark '\n' :: .mark '}' :: ts) = some (statements.map Node.bare, ts) := by
  induction statements with
  | nil =>
    rw [List.map_nil, List.flatMap_nil, List.nil_append, lines]
    rfl
  | cons s statements ih =>
    have hs := hreturns s List.mem_cons_self
    have hfirst := head?_statement_append (hwf s List.mem_cons_self) (hkind s List.mem_cons_self)
    have hrest := ih (fun m hm => hwf m (List.mem_cons_of_mem s hm))
      (fun m hm => hkind m (List.mem_cons_of_mem s hm))
      (fun m hm => hreturns m (List.mem_cons_of_mem s hm))
    -- another line follows, be it a statement or what closes the block
    obtain ⟨us, hus⟩ : ∃ us, (statements.map Node.tokens).flatMap (.mark '\n' :: ·) ++
        .mark '\n' :: .mark '}' :: ts = .mark '\n' :: us := by
      cases statements <;> exact ⟨_, rfl⟩
    simp only [List.map_cons, List.flatMap_cons, List.cons_append, List.append_assoc]
    have hread := hs (.mark '\n' :: us) rfl (by simp)
    rw [lines, if_neg (hfirst _), hus, goOn_eq hread (by grind), ← hus, hrest]
    rfl

/-- What follows the opening brace of a block is read as its statements. -/
theorem blockTokens_eq (statements : List Node) (hwf : ∀ s ∈ statements, s.WellFormed)
    (hkind : ∀ s ∈ statements, s.kind.isStatement = true)
    (hreturns : ∀ s ∈ statements, ReturnsStatement s) :
    ∃ us, Form.blockTokens (statements.map Node.tokens) = .mark '{' :: us ∧
      ∀ ts, lines (us ++ ts) = some (statements.map Node.bare, ts) := by
  cases statements with
  | nil =>
    refine ⟨[.mark '}'], rfl, ?_⟩
    intro ts
    rw [List.singleton_append, lines]
    rfl
  | cons s statements =>
    refine ⟨_, rfl, ?_⟩
    intro ts
    rw [List.append_assoc]
    exact lines_tokens hwf hkind hreturns ts

theorem name?_tokens {label : Option Node} (hkind : ∀ l ∈ label, l.kind = .identifier)
    (c : Char) (ts : List Token) :
    name? (Form.afterTokens [] (label.map Node.tokens) ++ .mark c :: ts) =
      (label.map Node.bare, .mark c :: ts) := by
  cases label with
  | none => rfl
  | some label =>
    obtain ⟨name, htokens, hbare⟩ := Node.tokens_identifier (hkind label rfl)
    simp [Form.afterTokens, htokens, hbare, name?]

theorem label_tokens (h : n.Everywhere Plain) (hkind : n.kind = .identifier) :
    ∃ name, n.tokens = [.word name] ∧ n.bare = .identifier name ∧ Keyword.ofWord? name = none := by
  have hwords := h.root.words
  rw [Node.tokens_eq, Node.bare_eq]
  rcases n with ⟨form, span, comments⟩
  cases form with
  | identifier name =>
    simp only [Form.hasPlainWords, Text.isName, Bool.and_eq_true,
      Option.isNone_iff_eq_none] at hwords
    exact ⟨name, rfl, rfl, hwords.1.2⟩
  | _ => cases hkind

theorem condition_tokens (h : n.Everywhere Plain) (hkind : n.kind.isExpression = true)
    (ts : List Token) :
    condition (.mark '(' :: (n.tokens ++ .mark ')' :: ts)) = some (n.bare, ts) := by
  unfold condition
  rw [expect_mark, Option.bind_eq_bind, Option.bind_some, (returns_of_plain h).whole hkind rfl]
  rfl

theorem result?_tokens {result : Option Node} (h : ∀ e ∈ result, e.Everywhere Plain)
    (hkind : ∀ e ∈ result, e.kind.isExpression = true) (ts : List Token) :
    result? (Form.afterTokens [] (result.map Node.tokens) ++ .mark ';' :: ts) =
      some (result.map Node.bare, .mark ';' :: ts) := by
  cases result with
  | none => exact if_pos rfl
  | some e =>
    have hfirst := Node.head?_tokens_append (c := ';') (wellFormed_of_plain (h e rfl))
      (Kind.opens_of_isExpression (hkind e rfl)) rfl
    simp only [Option.map_some, Form.afterTokens, List.nil_append]
    rw [result?, if_neg (hfirst _), (returns_of_plain (h e rfl)).whole (hkind e rfl) rfl]
    rfl

theorem signature_tokens {name : Option Node} {parameters : List Node}
    (hname : ∀ l ∈ name, l.kind = .identifier) (h : ∀ p ∈ parameters, p.Everywhere Plain)
    (hkind : ∀ p ∈ parameters, p.kind = .parameter) (ts : List Token) :
    signature (Form.afterTokens [] (name.map Node.tokens) ++
        .mark '(' :: (Form.separatedTokens (parameters.map Node.tokens) ++ .mark ')' :: ts)) =
      some ((name.map Node.bare, parameters.map Node.bare), ts) := by
  have hread := items_tokens .parameter ')' rfl (fun p hp => wellFormed_of_plain (h p hp))
    (fun p hp => returns_of_plain (h p hp)) (fun p hp => beq_iff_eq.mpr (hkind p hp)) ts
  rw [signature, name?_tokens hname, expect_mark, Option.bind_eq_bind, Option.bind_some, hread]
  rfl

theorem statement_keyword {k : Keyword} (hk : k.isLiteral = false) (ts : List Token) :
    statement (.word k.text :: ts) = directed k ts := by
  have hsimple : ¬ isSimple (.word k.text :: ts) = true := by
    rw [isSimple_keyword, hk]
    decide
  rw [statement.eq_def, if_neg hsimple]
  simp only [k.ofWord?_text]

theorem body?_tokens {body : Option Node} (hwf : ∀ b ∈ body, b.WellFormed)
    (hkind : ∀ b ∈ body, b.kind = .block) (hreturns : ∀ b ∈ body, ReturnsStatement b)
    (hts : ends ts = true) :
    body? ((body.map Node.tokens).getD [.mark ';'] ++ ts) = some (body.map Node.bare, ts) := by
  cases body with
  | none =>
    rw [body?]
    rfl
  | some b =>
    have hb : b.kind = .block := hkind b rfl
    have hfirst := Node.head?_tokens_append (c := ';') (hwf b rfl) (by rw [hb]; rfl) rfl
    have hclosed : ¬ b.endsOpen = true := by simp [Node.endsOpen_of_kind_block hb]
    simp only [Option.map_some, Option.getD_some]
    rw [body?, if_neg (hfirst _), hreturns b rfl ts hts fun hopen => absurd hopen hclosed]
    rfl

theorem alternative?_tokens {alternative : Option Node}
    (hreturns : ∀ a ∈ alternative, ReturnsStatement a) (hts : ends ts = true)
    (hopen : alternative.all Node.endsOpen = true → ts.head? ≠ some (.word "else")) :
    alternative? (Form.afterTokens [.word "else"] (alternative.map Node.tokens) ++ ts) =
      some (alternative.map Node.bare, ts) := by
  cases alternative with
  | none =>
    simp only [Option.map_none, Form.afterTokens, List.nil_append]
    rw [alternative?]
    rintro us rfl
    exact hopen rfl rfl
  | some a =>
    simp only [Option.map_some, Form.afterTokens, List.cons_append, List.nil_append]
    rw [alternative?, hreturns a rfl ts hts hopen]
    rfl

section Node

variable (hplain : n.Everywhere Plain)
  (hchildren : ∀ c ∈ n.children, c.kind.isStatement = true → ReturnsStatement c)

include hplain hchildren

theorem block_tokens {statements : List Node} (hform : n.form = .block statements) :
    ReturnsStatement n := by
  rcases n with ⟨form, span, comments⟩
  subst hform
  have hfits := hplain.root.fits
  simp only [Node.fits, Form.map, Form.fits, List.all_map, List.all_eq_true] at hfits
  intro ts hts _
  obtain ⟨us, hus, hlines⟩ := blockTokens_eq statements
    (fun s hs => wellFormed_of_plain (hplain.child hs)) hfits
    (fun s hs => hchildren s hs (hfits s hs))
  have hsimple := isSimple_block statements hts
  rw [Node.tokens_eq, Node.bare_eq]
  simp only [Form.map, Form.tokens]
  rw [hus, List.cons_append] at hsimple ⊢
  rw [statement, if_neg (by rw [hsimple]; decide), hlines]
  rfl

theorem function_tokens {name : Option Node} {parameters : List Node} {body : Option Node}
    (hform : n.form = .functionDeclaration name parameters body) : ReturnsStatement n := by
  rcases n with ⟨form, span, comments⟩
  subst hform
  have hfits := hplain.root.fits
  simp only [Node.fits, Form.map, Form.fits, Bool.and_eq_true, List.all_map, List.all_eq_true,
    Option.all_map, Option.all_eq_true, Function.comp_apply, beq_iff_eq] at hfits
  obtain ⟨⟨hname, hparameters⟩, hbody⟩ := hfits
  intro ts hts _
  have hmem (c : Node) (hc : c ∈ parameters ++ body.toList) :
      c ∈ name.toList ++ (parameters ++ body.toList) := List.mem_append_right _ hc
  have hread := signature_tokens hname
    (fun p hp => hplain.child (hmem p (List.mem_append_left _ hp))) hparameters
  have hmemBody (b : Node) (hb : b ∈ body) :=
    hmem b (List.mem_append_right _ (Option.mem_toList.mpr hb))
  have hlast := body?_tokens (fun b hb => wellFormed_of_plain (hplain.child (hmemBody b hb))) hbody
    (fun b hb => hchildren b (hmemBody b hb) (by rw [hbody b hb]; rfl)) hts
  rw [Node.tokens_eq, Node.bare_eq]
  simp only [Form.map, Form.tokens, List.cons_append, List.append_assoc]
  rw [show "function" = Keyword.function.text from rfl, statement_keyword rfl, directed,
    goOn_eq (hread _) (by grind), hlast]
  rfl

theorem if_tokens {value consequent : Node} {alternative : Option Node}
    (hform : n.form = .ifStatement value consequent alternative) : ReturnsStatement n := by
  rcases n with ⟨form, span, comments⟩
  subst hform
  obtain ⟨hfits, hgrouped, _⟩ := hplain.root
  simp only [Node.fits, Form.map, Form.fits, Bool.and_eq_true, Option.all_map,
    Option.all_eq_true] at hfits
  obtain ⟨⟨hvalue, hconsequent⟩, halternative⟩ := hfits
  intro ts hts hopen
  have hread := condition_tokens (hplain.child List.mem_cons_self) hvalue
  have hfirst := hchildren consequent (List.mem_cons_of_mem value List.mem_cons_self) hconsequent
  have hmem (a : Node) (ha : a ∈ alternative) : a ∈ value :: consequent :: alternative.toList :=
    List.mem_cons_of_mem _ (List.mem_cons_of_mem _ (Option.mem_toList.mpr ha))
  have hlast := alternative?_tokens (fun a ha => hchildren a (hmem a ha) (halternative a ha)) hts
    (by cases alternative <;> exact hopen)
  have hends :
      ends (Form.afterTokens [.word "else"] (alternative.map Node.tokens) ++ ts) = true := by
    cases alternative with
    | none => exact hts
    | some a => rfl
  have hclosed : consequent.endsOpen = true →
      (Form.afterTokens [.word "else"] (alternative.map Node.tokens) ++ ts).head? ≠
        some (.word "else") := by
    intro hconsequent
    cases alternative with
    | none => exact hopen rfl
    | some a => simp [Node.isGrouped, hconsequent] at hgrouped
  rw [Node.tokens_eq, Node.bare_eq]
  simp only [Form.map, Form.tokens, List.cons_append, List.append_assoc]
  rw [show "if" = Keyword.test.text from rfl, statement_keyword rfl, directed,
    goOn_eq (hread _) (by grind), goOn_eq (hfirst _ hends hclosed) (by grind), hlast]
  rfl

theorem labeled_tokens {label body : Node} (hform : n.form = .labeledStatement label body) :
    ReturnsStatement n := by
  rcases n with ⟨form, span, comments⟩
  subst hform
  have hfits := hplain.root.fits
  simp only [Node.fits, Form.map, Form.fits, Bool.and_eq_true, beq_iff_eq] at hfits
  intro ts hts hopen
  have hbody := hchildren body (List.mem_cons_of_mem label List.mem_cons_self) hfits.2
  obtain ⟨name, htokens, hbare, hname⟩ := label_tokens (hplain.child List.mem_cons_self) hfits.1
  have hsimple : ¬ isSimple (.word name :: .mark ':' :: (body.tokens ++ ts)) = true := by
    rw [isSimple, hname]
    simp
  rw [Node.tokens_eq, Node.bare_eq]
  simp only [Form.map, Form.tokens, htokens, hbare, List.cons_append, List.nil_append]
  rw [statement, if_neg hsimple, hname]
  dsimp only
  rw [hbody ts hts hopen]
  rfl

theorem while_tokens {value body : Node} (hform : n.form = .whileStatement value body) :
    ReturnsStatement n := by
  rcases n with ⟨form, span, comments⟩
  subst hform
  have hfits := hplain.root.fits
  simp only [Node.fits, Form.map, Form.fits, Bool.and_eq_true] at hfits
  intro ts hts hopen
  have hread := condition_tokens (hplain.child List.mem_cons_self) hfits.1
  have hbody := hchildren body (List.mem_cons_of_mem value List.mem_cons_self) hfits.2
  rw [Node.tokens_eq, Node.bare_eq]
  simp only [Form.map, Form.tokens, List.cons_append, List.append_assoc]
  rw [show "while" = Keyword.loop.text from rfl, statement_keyword rfl, directed,
    goOn_eq (hread _) (by grind), hbody ts hts hopen]
  rfl

end Node

/-- The tokens of a statement are read as the statement. The induction carries what may follow: an
`else` may not, after a statement that would take it. -/
theorem statement_tokens (hplain : n.Everywhere Plain) (hkind : n.kind.isStatement = true) :
    ReturnsStatement n := by
  induction n using Node.induction with
  | step n ih =>
    have hchildren (c : Node) (hc : c ∈ n.children) (hk : c.kind.isStatement = true) :
        ReturnsStatement c := ih c hc (hplain.child hc) hk
    have hfits := hplain.root.fits
    rcases n with ⟨form, span, comments⟩
    cases form with
    | block => exact block_tokens hplain hchildren rfl
    | functionDeclaration => exact function_tokens hplain hchildren rfl
    | ifStatement => exact if_tokens hplain hchildren rfl
    | labeledStatement => exact labeled_tokens hplain hchildren rfl
    | whileStatement => exact while_tokens hplain hchildren rfl
    | emptyStatement =>
      intro ts _ _
      rw [Node.tokens_eq, Node.bare_eq]
      simp only [Form.map, Form.tokens, List.cons_append, List.nil_append]
      rw [statement, if_neg (by simp [isSimple])]
    | expressionStatement value =>
      intro ts _ _
      have hvalue := hplain.child (c := value) List.mem_cons_self
      rw [Node.tokens_eq, Node.bare_eq]
      simp only [Form.map, Form.tokens, List.append_assoc, List.cons_append, List.nil_append]
      rw [statement.eq_def, if_pos (isSimple_tokens hvalue hfits rfl),
        (returns_of_plain hvalue).whole hfits rfl]
      rfl
    | variableStatement binding declarations =>
      intro ts _ _
      simp only [Node.fits, Form.map, Form.fits, List.all_map, List.all_eq_true] at hfits
      have hread := items_tokens .declaration ';' rfl
        (fun d hd => wellFormed_of_plain (hplain.child hd))
        (fun d hd => returns_of_plain (hplain.child hd)) hfits ts
      rw [Node.tokens_eq, Node.bare_eq]
      simp only [Form.map, Form.tokens, List.append_assoc, List.cons_append, List.nil_append]
      rw [show binding.keyword = (Keyword.declare binding).text from rfl, statement_keyword rfl,
        directed]
      exact congrArg (Option.bind · _) hread
    | returnStatement result =>
      intro ts _ _
      simp only [Node.fits, Form.map, Form.fits, Option.all_map, Option.all_eq_true] at hfits
      have hread := result?_tokens (fun e he => hplain.child (Option.mem_toList.mpr he)) hfits ts
      rw [Node.tokens_eq, Node.bare_eq]
      simp only [Form.map, Form.tokens, List.append_assoc, List.cons_append, List.nil_append]
      rw [show "return" = Keyword.answer.text from rfl, statement_keyword rfl, directed, hread]
      rfl
    | breakStatement label =>
      intro ts _ _
      simp only [Node.fits, Form.map, Form.fits, Option.all_map, Option.all_eq_true,
        beq_iff_eq] at hfits
      rw [Node.tokens_eq, Node.bare_eq]
      simp only [Form.map, Form.tokens, List.append_assoc, List.cons_append, List.nil_append]
      rw [show "break" = Keyword.leave.text from rfl, statement_keyword rfl, directed,
        name?_tokens hfits]
      rfl
    | continueStatement label =>
      intro ts _ _
      simp only [Node.fits, Form.map, Form.fits, Option.all_map, Option.all_eq_true,
        beq_iff_eq] at hfits
      rw [Node.tokens_eq, Node.bare_eq]
      simp only [Form.map, Form.tokens, List.append_assoc, List.cons_append, List.nil_append]
      rw [show "continue" = Keyword.resume.text from rfl, statement_keyword rfl, directed,
        name?_tokens hfits]
      rfl
    | _ => cases hkind

theorem bare_eq_of_statement_tokens {a b : Node} (ha : a.Everywhere Plain)
    (hb : b.Everywhere Plain) (hakind : a.kind.isStatement = true)
    (hbkind : b.kind.isStatement = true) (h : a.tokens = b.tokens) : a.bare = b.bare := by
  have hread := statement_tokens ha hakind [] rfl nofun
  rw [h, statement_tokens hb hbkind [] rfl nofun] at hread
  exact (Prod.mk.inj (Option.some.inj hread)).1.symm

end Reader

end EntryTrace
