import EntryTrace.Proofs.Grouping
import EntryTrace.Proofs.Tokens
import EntryTrace.Proofs.WellFormed

/-!
# Reading expressions

A reader by recursive descent turns tokens back into trees: an expression is operands joined by
operators, an operand is a word, a literal or an object with suffixes. Operations join from the left
and suffixes go to the last operand, so the reader gives back grouped trees, and of those it gives
back every one whose words it can tell apart (`Reader.returns`). How it tells words apart is a
parameter, since what counts as a name depends on which literals there are.
-/

namespace EntryTrace

set_option autoImplicit false

/-- What stands in a list between marks. -/
inductive Slot where
  | argument
  | member
  | element
  | parameter
  | declaration

namespace Reader

section Next

variable {α β : Type} {ts left : List Token} {read : Option (α × List Token)} {a : α}

/-- Goes on with the tokens that are left, provided that some have been read. -/
def goOn (ts : List Token) (read : Option (α × List Token))
    (next : α → (left : List Token) → left.length < ts.length → Option β) : Option β :=
  match read with
  | some (a, left) => if h : left.length < ts.length then next a left h else none
  | none => none

theorem goOn_eq (hread : read = some (a, left)) (h : left.length < ts.length)
    (next : α → (left : List Token) → left.length < ts.length → Option β) :
    goOn ts read next = next a left h := by
  rw [hread, goOn, dif_pos h]

end Next

variable (leaf : String → Form Node)

-- A call reads fewer tokens than its caller, or as many with a smaller second component.
mutual

def expression (ts : List Token) : Option (Node × List Token) :=
  goOn ts (operand ts) fun first left _ => operations first left
termination_by (ts.length, 1)

def operations (first : Node) (ts : List Token) : Option (Node × List Token) :=
  match ts with
  | .operator o :: ts =>
    goOn (.operator o :: ts) (operand ts) fun right left _ =>
      operations (.ofForm (.binaryExpression first o right)) left
  | ts => some (first, ts)
termination_by (ts.length, 0)

def operand (ts : List Token) : Option (Node × List Token) :=
  match ts with
  | .word w :: ts => suffixes (.ofForm (leaf w)) ts
  | .text value :: ts => suffixes (.ofForm (.stringLiteral value)) ts
  | .mark '{' :: ts =>
    goOn (.mark '{' :: ts) (items .member '}' ts) fun members left _ =>
      suffixes (.ofForm (.objectLiteral members)) left
  | _ => none
termination_by (ts.length, 0)

def suffixes (n : Node) (ts : List Token) : Option (Node × List Token) :=
  match ts with
  | .mark '.' :: .word name :: ts => suffixes (.ofForm (.propertyAccess n (.identifier name))) ts
  | .mark '(' :: ts =>
    goOn (.mark '(' :: ts) (items .argument ')' ts) fun arguments left _ =>
      suffixes (.ofForm (.callExpression n arguments)) left
  | ts => some (n, ts)
termination_by (ts.length, 0)

/-- A list up to the mark that closes it. -/
def items (slot : Slot) (closing : Char) (ts : List Token) : Option (List Node × List Token) :=
  if ts.head? = some (.mark closing) then some ([], ts.tail)
  else
    goOn ts (item slot ts) fun first left h =>
      match left, h with
      | .mark c :: left, _ =>
        if c = ',' then do
          let (others, left) ← items slot closing left
          some (first :: others, left)
        else if c = closing then some ([first], left)
        else none
      | _, _ => none
termination_by (ts.length, 3)
decreasing_by
  · exact Prod.Lex.right _ (by decide)
  · rename_i h _
    exact Prod.Lex.left _ _ (Nat.lt_of_succ_lt h)

def item (slot : Slot) (ts : List Token) : Option (Node × List Token) :=
  match slot with
  | .argument => expression ts
  | .member =>
    match ts with
    | .word name :: .mark ':' :: ts => do
      let (value, left) ← expression ts
      some (.ofForm (.propertyAssignment (.identifier name) value), left)
    | .word name :: ts => some (.ofForm (.shorthandProperty (.identifier name)), ts)
    | _ => none
  | .element => target ts
  | .parameter => bound .parameter ts
  | .declaration => bound .variableDeclaration ts
termination_by (ts.length, 2)

def target (ts : List Token) : Option (Node × List Token) :=
  match ts with
  | .word name :: ts => some (.identifier name, ts)
  | .mark '{' :: ts => do
    let (elements, left) ← items .element '}' ts
    some (.ofForm (.objectBindingPattern elements), left)
  | .mark '[' :: ts => do
    let (elements, left) ← items .element ']' ts
    some (.ofForm (.arrayBindingPattern elements), left)
  | _ => none
termination_by (ts.length, 0)

/-- A target, maybe with an initial value. -/
def bound (build : Node → Option Node → Form Node) (ts : List Token) :
    Option (Node × List Token) :=
  goOn ts (target ts) fun name left _ => do
    let (value, left) ← initial left
    some (.ofForm (build name value), left)
termination_by (ts.length, 1)

def initial (ts : List Token) : Option (Option Node × List Token) :=
  match ts with
  | .operator .assign :: ts => do
    let (value, left) ← expression ts
    some (some value, left)
  | ts => some (none, ts)
termination_by (ts.length, 0)

end

/-! ### Single steps -/

section Steps

variable {leaf} {ts us : List Token}

theorem suffixes_dot (n : Node) (name : String) (ts : List Token) :
    suffixes leaf n (.mark '.' :: .word name :: ts) =
      suffixes leaf (.ofForm (.propertyAccess n (.identifier name))) ts := by
  rw [suffixes]

theorem suffixes_call {arguments : List Node}
    (h : items leaf .argument ')' ts = some (arguments, us)) (hlength : us.length ≤ ts.length)
    (n : Node) :
    suffixes leaf n (.mark '(' :: ts) =
      suffixes leaf (.ofForm (.callExpression n arguments)) us := by
  rw [suffixes, goOn_eq h (by simpa using Nat.lt_succ_of_le hlength)]

theorem operations_operator {right : Node} (h : operand leaf ts = some (right, us))
    (hlength : us.length ≤ ts.length) (left : Node) (o : Operator) :
    operations leaf left (.operator o :: ts) =
      operations leaf (.ofForm (.binaryExpression left o right)) us := by
  rw [operations, goOn_eq h (by simpa using Nat.lt_succ_of_le hlength)]

/-- The first token goes on with the last operand. -/
def isSuffix : List Token → Bool
  | .mark c :: _ => c == '.' || c == '('
  | _ => false

/-- The first token goes on with an expression, or makes a name a key. -/
def goesOn : List Token → Bool
  | .operator _ :: _ => true
  | .mark c :: _ => c == '.' || c == '(' || c == ':'
  | _ => false

theorem isSuffix_of_goesOn (h : goesOn ts = false) : isSuffix ts = false := by
  unfold goesOn at h
  unfold isSuffix
  split at h <;> simp_all

theorem suffixes_stop (h : isSuffix ts = false) (n : Node) : suffixes leaf n ts = some (n, ts) := by
  rw [suffixes]
  · intro name us hts
    simp [hts, isSuffix] at h
  · intro us hts
    simp [hts, isSuffix] at h

theorem operations_stop (h : goesOn ts = false) (n : Node) :
    operations leaf n ts = some (n, ts) := by
  rw [operations]
  intro o us hts
  simp [hts, goesOn] at h

end Steps

end Reader

/-! ### First tokens -/

/-- A token that can come first in a list or in a line. -/
def Token.opens : Token → Bool
  | .mark c => c == '{' || c == '['
  | .operator _ => false
  | _ => true

namespace Kind

variable {k : Kind}

/-- The kinds that are written with a word, a literal or an opening mark first. -/
def opens : Kind → Bool
  | sourceFile | emptyStatement => false
  | _ => true

theorem opens_of_isExpression (h : k.isExpression = true) : k.opens = true := by
  cases k <;> first | rfl | cases h

theorem opens_of_isTarget (h : k.isTarget = true) : k.opens = true := by
  cases k <;> first | rfl | cases h

theorem opens_of_isIdentifier (h : (k == .identifier) = true) : k.opens = true := by
  rw [beq_iff_eq.mp h]
  rfl

end Kind

namespace Slot

def admits : Slot → Kind → Bool
  | argument => Kind.isExpression
  | member => Kind.isMember
  | element => Kind.isTarget
  | parameter => (· == .parameter)
  | declaration => (· == .variableDeclaration)

theorem opens_of_admits {slot : Slot} {k : Kind} (h : slot.admits k = true) : k.opens = true := by
  cases slot <;> cases k <;> first | rfl | cases h

end Slot

namespace Node

variable {n : Node}

theorem tokens_identifier (h : n.kind = .identifier) :
    ∃ name, n.tokens = [.word name] ∧ n.bare = identifier name := by
  rw [tokens_eq, bare_eq]
  rcases n with ⟨form, span, comments⟩
  cases form with
  | identifier name => exact ⟨name, rfl, rfl⟩
  | _ => cases h

theorem tokens_eq_cons (hwf : n.WellFormed) (hkind : n.kind.opens = true) :
    ∃ t ts, n.tokens = t :: ts ∧ t.opens = true := by
  induction n using Node.induction with
  | step n ih =>
    have hfits := hwf.root
    -- many constructs begin with their first child
    have hchild (c : Node) (rest : List Token) (hc : c ∈ n.children)
        (hopens : c.kind.opens = true) :
        ∃ t ts, c.tokens ++ rest = t :: ts ∧ t.opens = true := by
      obtain ⟨t, ts, htokens, ht⟩ := ih c hc (hwf.child hc) hopens
      exact ⟨t, ts ++ rest, by rw [htokens, List.cons_append], ht⟩
    rw [tokens_eq]
    rcases n with ⟨form, span, comments⟩
    cases form with
    | sourceFile | emptyStatement => cases hkind
    | block statements => cases statements <;> exact ⟨_, _, rfl, rfl⟩
    | expressionStatement c =>
      exact hchild c _ (by simp [children, Form.children]) (Kind.opens_of_isExpression hfits)
    | labeledStatement c | propertyAssignment c =>
      simp only [fits, Form.map, Form.fits, Bool.and_eq_true] at hfits
      exact hchild c _ (by simp [children, Form.children]) (Kind.opens_of_isIdentifier hfits.1)
    | parameter c | variableDeclaration c =>
      simp only [fits, Form.map, Form.fits, Bool.and_eq_true] at hfits
      exact hchild c _ (by simp [children, Form.children]) (Kind.opens_of_isTarget hfits.1)
    | callExpression c | propertyAccess c | binaryExpression c =>
      simp only [fits, Form.map, Form.fits, Bool.and_eq_true] at hfits
      exact hchild c _ (by simp [children, Form.children]) (Kind.opens_of_isExpression hfits.1)
    | shorthandProperty c =>
      have h := hchild c [] (by simp [children, Form.children]) (Kind.opens_of_isIdentifier hfits)
      simpa [Form.map, Form.tokens] using h
    | _ => exact ⟨_, _, rfl, rfl⟩

theorem length_lt_tokens_append (hwf : n.WellFormed) (hkind : n.kind.opens = true)
    (ts : List Token) : ts.length < (n.tokens ++ ts).length := by
  obtain ⟨t, us, htokens, _⟩ := tokens_eq_cons hwf hkind
  rw [htokens, List.length_append, List.length_cons]
  omega

theorem head?_tokens_append (hwf : n.WellFormed) (hkind : n.kind.opens = true) {c : Char}
    (hc : (Token.mark c).opens = false) (ts : List Token) :
    (n.tokens ++ ts).head? ≠ some (.mark c) := by
  obtain ⟨t, us, htokens, ht⟩ := tokens_eq_cons hwf hkind
  rw [htokens]
  intro heq
  have hmark : t = .mark c := by simpa using heq
  rw [hmark, hc] at ht
  cases ht

end Node

/-- The word that a name or a literal is. -/
def Form.word? {α : Type} : Form α → Option String
  | identifier text => some text
  | numericLiteral text => some text
  | booleanLiteral value => some (if value then "true" else "false")
  | nullLiteral => some "null"
  | _ => none

namespace Reader

variable {leaf} {n : Node} {slot : Slot} {ts : List Token}

/-! ### Trees that are given back -/

/-- The node has only such children as may stand there, grouped as they are read, and its word is
read as what the node is. -/
structure Legible (leaf : String → Form Node) (n : Node) : Prop where
  fits : n.fits = true
  grouped : n.isGrouped = true
  word : ∀ w ∈ n.form.word?, leaf w = n.form

theorem wellFormed_of_legible (h : n.Everywhere (Legible leaf)) : n.WellFormed :=
  h.imp fun _ hm => hm.fits

/-- The tokens of the node are read as the node. -/
structure Returns (leaf : String → Form Node) (n : Node) : Prop where
  operand : n.kind.isExpression = true → n.kind ≠ .binaryExpression →
    ∀ ts, operand leaf (n.tokens ++ ts) = suffixes leaf n.bare ts
  expression : n.kind.isExpression = true →
    ∀ ts, isSuffix ts = false → expression leaf (n.tokens ++ ts) = operations leaf n.bare ts
  target : n.kind.isTarget = true →
    ∀ ts, target leaf (n.tokens ++ ts) = some (n.bare, ts)
  item : ∀ slot : Slot, slot.admits n.kind = true →
    ∀ ts, goesOn ts = false → item leaf slot (n.tokens ++ ts) = some (n.bare, ts)

theorem Returns.whole (h : Returns leaf n) (hkind : n.kind.isExpression = true)
    (hts : goesOn ts = false) : Reader.expression leaf (n.tokens ++ ts) = some (n.bare, ts) := by
  rw [h.expression hkind ts (isSuffix_of_goesOn hts), operations_stop hts]

/-- The marks that close a list. -/
def isClosing : Char → Bool
  | ')' | '}' | ']' | ';' => true
  | _ => false

theorem not_goesOn_of_isClosing {c : Char} (h : isClosing c = true) (ts : List Token) :
    goesOn (.mark c :: ts) = false ∧ c ≠ ',' ∧ (Token.mark c).opens = false := by
  unfold isClosing at h
  split at h
  all_goals first | exact ⟨rfl, by decide, rfl⟩ | cases h

theorem items_tokens (slot : Slot) (closing : Char) (hclosing : isClosing closing = true)
    {ns : List Node} (hwf : ∀ n ∈ ns, n.WellFormed) (hreturns : ∀ n ∈ ns, Returns leaf n)
    (hadmits : ∀ n ∈ ns, slot.admits n.kind = true) (ts : List Token) :
    items leaf slot closing (Form.separatedTokens (ns.map Node.tokens) ++ .mark closing :: ts) =
      some (ns.map Node.bare, ts) := by
  obtain ⟨hstop, hcomma, hopens⟩ := not_goesOn_of_isClosing hclosing ts
  induction ns with
  | nil =>
    rw [items]
    exact if_pos rfl
  | cons n ns ih =>
    have hn := (hreturns n List.mem_cons_self).item slot (hadmits n List.mem_cons_self)
    have hkind := Slot.opens_of_admits (hadmits n List.mem_cons_self)
    have hfirst := Node.head?_tokens_append (hwf n List.mem_cons_self) hkind hopens
    have hlength := Node.length_lt_tokens_append (hwf n List.mem_cons_self) hkind
    have hrest := ih (fun m hm => hwf m (List.mem_cons_of_mem n hm))
      (fun m hm => hreturns m (List.mem_cons_of_mem n hm))
      (fun m hm => hadmits m (List.mem_cons_of_mem n hm))
    cases ns with
    | nil =>
      simp only [List.map_cons, List.map_nil, Form.separatedTokens, List.intercalate_singleton]
      rw [items, if_neg (hfirst _), goOn_eq (hn _ hstop) (hlength _)]
      dsimp only
      rw [if_neg hcomma, if_pos rfl]
    | cons m ms =>
      simp only [List.map_cons, Form.separatedTokens, List.intercalate_cons_cons,
        List.append_assoc, List.cons_append, List.nil_append] at hrest ⊢
      rw [items, if_neg (hfirst _), goOn_eq (hn _ rfl) (hlength _)]
      dsimp only
      rw [if_pos rfl, hrest]
      rfl

theorem initial_tokens {value : Option Node} (hkind : ∀ v ∈ value, v.kind.isExpression = true)
    (hreturns : ∀ v ∈ value, Returns leaf v) (hts : goesOn ts = false) :
    initial leaf (Form.afterTokens [.operator .assign] (value.map Node.tokens) ++ ts) =
      some (value.map Node.bare, ts) := by
  cases value with
  | none =>
    simp only [Option.map_none, Form.afterTokens, List.nil_append]
    rw [initial]
    intro us hus
    simp [hus, goesOn] at hts
  | some v =>
    have hv := (hreturns v rfl).whole (hkind v rfl) hts
    simp only [Option.map_some, Form.afterTokens, List.cons_append, List.nil_append]
    rw [initial, hv]
    rfl

theorem bound_tokens {name : Node} {value : Option Node} (hwf : name.WellFormed)
    (hreturns : ∀ c ∈ name :: value.toList, Returns leaf c)
    (build : Node → Option Node → Form Node)
    (hfits : (name.kind.isTarget && (value.map Node.kind).all Kind.isExpression) = true)
    (hts : goesOn ts = false) :
    bound leaf build (name.tokens ++
        Form.afterTokens [.operator .assign] (value.map Node.tokens) ++ ts) =
      some (.ofForm (build name.bare (value.map Node.bare)), ts) := by
  simp only [Bool.and_eq_true, Option.all_map, Option.all_eq_true] at hfits
  have hname := (hreturns name List.mem_cons_self).target hfits.1
  have hvalue := initial_tokens hfits.2
    (fun v hv => hreturns v (List.mem_cons_of_mem name (Option.mem_toList.mpr hv))) hts
  have hlength := Node.length_lt_tokens_append hwf (Kind.opens_of_isTarget hfits.1)
  rw [List.append_assoc, bound, goOn_eq (hname _) (hlength _), hvalue]
  rfl

section Node

variable (hlegible : n.Everywhere (Legible leaf)) (hchildren : ∀ c ∈ n.children, Returns leaf c)

include hlegible hchildren

theorem items_children (slot : Slot) (closing : Char) (hclosing : isClosing closing = true)
    (ns : List Node) (hns : ∀ m ∈ ns, m ∈ n.children)
    (hadmits : ∀ m ∈ ns, slot.admits m.kind = true) (ts : List Token) :
    items leaf slot closing (Form.separatedTokens (ns.map Node.tokens) ++ .mark closing :: ts) =
      some (ns.map Node.bare, ts) :=
  items_tokens slot closing hclosing (fun m hm => wellFormed_of_legible (hlegible.child (hns m hm)))
    (fun m hm => hchildren m (hns m hm)) hadmits ts

theorem operand_tokens (hkind : n.kind.isExpression = true) (hbinary : n.kind ≠ .binaryExpression)
    (ts : List Token) : operand leaf (n.tokens ++ ts) = suffixes leaf n.bare ts := by
  have hitems := items_children hlegible hchildren
  obtain ⟨hfits, hgrouped, hword⟩ := hlegible.root
  rw [Node.tokens_eq, Node.bare_eq]
  rcases n with ⟨form, span, comments⟩
  cases form with
  | identifier | numericLiteral | booleanLiteral | nullLiteral =>
    simp only [Form.map, Form.tokens, List.cons_append, List.nil_append]
    rw [operand, hword _ rfl]
  | stringLiteral text =>
    simp only [Form.map, Form.tokens, List.cons_append, List.nil_append]
    rw [operand]
  | objectLiteral properties =>
    simp only [Node.fits, Form.map, Form.fits, List.all_map, List.all_eq_true] at hfits
    have hread := hitems .member '}' rfl properties (fun m hm => hm) hfits ts
    simp only [Form.map, Form.tokens, List.cons_append, List.nil_append, List.append_assoc]
    rw [operand, goOn_eq hread (by grind)]
  | callExpression callee arguments =>
    simp only [Node.fits, Form.map, Form.fits, Bool.and_eq_true, List.all_map,
      List.all_eq_true] at hfits
    have hcallee := (hchildren callee List.mem_cons_self).operand hfits.1 (bne_iff_ne.mp hgrouped)
    have hread := hitems .argument ')' rfl arguments
      (fun m hm => List.mem_cons_of_mem callee hm) hfits.2 ts
    simp only [Form.map, Form.tokens, List.cons_append, List.nil_append, List.append_assoc]
    rw [hcallee, suffixes_call hread (by grind)]
  | propertyAccess object property =>
    simp only [Node.fits, Form.map, Form.fits, Bool.and_eq_true, beq_iff_eq] at hfits
    have hobject := (hchildren object List.mem_cons_self).operand hfits.1 (bne_iff_ne.mp hgrouped)
    obtain ⟨name, htokens, hbare⟩ := Node.tokens_identifier hfits.2
    simp only [Form.map, Form.tokens, List.cons_append, List.nil_append, List.append_assoc, htokens,
      hbare]
    rw [hobject, suffixes_dot]
  | binaryExpression => exact absurd rfl hbinary
  | _ => cases hkind

theorem expression_tokens (hkind : n.kind.isExpression = true) (hts : isSuffix ts = false) :
    expression leaf (n.tokens ++ ts) = operations leaf n.bare ts := by
  by_cases hbinary : n.kind = .binaryExpression
  · obtain ⟨hfits, hgrouped, _⟩ := hlegible.root
    rw [Node.tokens_eq, Node.bare_eq]
    rcases n with ⟨form, span, comments⟩
    cases form with
    | binaryExpression left operator right =>
      simp only [Node.fits, Form.map, Form.fits, Bool.and_eq_true] at hfits
      have hleft := (hchildren left List.mem_cons_self).expression hfits.1
      have hright := (hchildren right (by simp [Node.children, Form.children])).operand hfits.2
        (bne_iff_ne.mp hgrouped)
      simp only [Form.map, Form.tokens, List.cons_append, List.append_assoc]
      rw [hleft _ rfl, operations_operator ((hright ts).trans (suffixes_stop hts _)) (by simp)]
    | _ => cases hbinary
  · have hread := (operand_tokens hlegible hchildren hkind hbinary ts).trans (suffixes_stop hts _)
    have hlength := Node.length_lt_tokens_append (wellFormed_of_legible hlegible)
      (Kind.opens_of_isExpression hkind) ts
    rw [expression, goOn_eq hread hlength]

theorem member_tokens (hkind : n.kind.isMember = true) (hts : goesOn ts = false) :
    item leaf .member (n.tokens ++ ts) = some (n.bare, ts) := by
  have hfits := hlegible.root.fits
  rw [Node.tokens_eq, Node.bare_eq]
  rcases n with ⟨form, span, comments⟩
  cases form with
  | propertyAssignment name value =>
    simp only [Node.fits, Form.map, Form.fits, Bool.and_eq_true, beq_iff_eq] at hfits
    have hvalue := (hchildren value (by simp [Node.children, Form.children])).whole hfits.2 hts
    obtain ⟨key, htokens, hbare⟩ := Node.tokens_identifier hfits.1
    simp only [Form.map, Form.tokens, List.cons_append, List.nil_append, htokens, hbare]
    rw [item, hvalue]
    rfl
  | shorthandProperty name =>
    obtain ⟨key, htokens, hbare⟩ := Node.tokens_identifier (beq_iff_eq.mp hfits)
    simp only [Form.map, Form.tokens, List.cons_append, List.nil_append, htokens, hbare]
    rw [item]
    intro us hus
    simp [hus, goesOn] at hts
  | _ => cases hkind

theorem target_tokens (hkind : n.kind.isTarget = true) (ts : List Token) :
    target leaf (n.tokens ++ ts) = some (n.bare, ts) := by
  have hitems := items_children hlegible hchildren .element
  have hfits := hlegible.root.fits
  rw [Node.tokens_eq, Node.bare_eq]
  rcases n with ⟨form, span, comments⟩
  cases form with
  | identifier name =>
    simp only [Form.map, Form.tokens, List.cons_append, List.nil_append]
    rw [target]
    rfl
  | objectBindingPattern elements =>
    simp only [Node.fits, Form.map, Form.fits, List.all_map, List.all_eq_true] at hfits
    have hread := hitems '}' rfl elements (fun m hm => hm) hfits ts
    simp only [Form.map, Form.tokens, List.cons_append, List.nil_append, List.append_assoc]
    rw [target, hread]
    rfl
  | arrayBindingPattern elements =>
    simp only [Node.fits, Form.map, Form.fits, List.all_map, List.all_eq_true] at hfits
    have hread := hitems ']' rfl elements (fun m hm => hm) hfits ts
    simp only [Form.map, Form.tokens, List.cons_append, List.nil_append, List.append_assoc]
    rw [target, hread]
    rfl
  | _ => cases hkind

theorem parameter_tokens (hkind : n.kind = .parameter) (hts : goesOn ts = false) :
    item leaf .parameter (n.tokens ++ ts) = some (n.bare, ts) := by
  have hfits := hlegible.root.fits
  rw [Node.tokens_eq, Node.bare_eq]
  rcases n with ⟨form, span, comments⟩
  cases form with
  | parameter name value =>
    rw [item]
    exact bound_tokens (wellFormed_of_legible (hlegible.child List.mem_cons_self)) hchildren
      .parameter hfits hts
  | _ => cases hkind

theorem declaration_tokens (hkind : n.kind = .variableDeclaration) (hts : goesOn ts = false) :
    item leaf .declaration (n.tokens ++ ts) = some (n.bare, ts) := by
  have hfits := hlegible.root.fits
  rw [Node.tokens_eq, Node.bare_eq]
  rcases n with ⟨form, span, comments⟩
  cases form with
  | variableDeclaration name value =>
    rw [item]
    exact bound_tokens (wellFormed_of_legible (hlegible.child List.mem_cons_self)) hchildren
      .variableDeclaration hfits hts
  | _ => cases hkind

end Node

theorem returns (hlegible : n.Everywhere (Legible leaf)) : Returns leaf n := by
  induction n using Node.induction with
  | step n ih =>
    have hchildren (c : Node) (hc : c ∈ n.children) : Returns leaf c := ih c hc (hlegible.child hc)
    refine ⟨operand_tokens hlegible hchildren,
      fun hkind ts => expression_tokens hlegible hchildren hkind,
      target_tokens hlegible hchildren, ?_⟩
    intro slot hadmits ts hts
    cases slot with
    | argument =>
      rw [item, expression_tokens hlegible hchildren hadmits (isSuffix_of_goesOn hts),
        operations_stop hts]
    | member => exact member_tokens hlegible hchildren hadmits hts
    | element =>
      rw [item]
      exact target_tokens hlegible hchildren hadmits ts
    | parameter => exact parameter_tokens hlegible hchildren (beq_iff_eq.mp hadmits) hts
    | declaration => exact declaration_tokens hlegible hchildren (beq_iff_eq.mp hadmits) hts

theorem bare_eq_of_tokens {a b : Node} (ha : a.Everywhere (Legible leaf))
    (hb : b.Everywhere (Legible leaf)) (hakind : a.kind.isExpression = true)
    (hbkind : b.kind.isExpression = true) (h : a.tokens = b.tokens) : a.bare = b.bare := by
  have hread : expression leaf (a.tokens ++ []) = some (a.bare, []) := (returns ha).whole hakind rfl
  rw [h, (returns hb).whole hbkind rfl] at hread
  exact (Prod.mk.inj (Option.some.inj hread)).1.symm

end Reader

end EntryTrace
