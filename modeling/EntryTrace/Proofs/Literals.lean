import EntryTrace.Tree.Print

/-! Reading string literals back. A literal is read up to the first quote that no backslash leads;
what the escapes stand for is put in their place, and the text behind the literal is left over. What
is written shows no control character, so a literal never breaks a line. -/

namespace EntryTrace.Text

set_option autoImplicit false

def hexValue? (c : Char) : Option Nat :=
  if '0' ≤ c ∧ c ≤ '9' then some (c.toNat - 48)
  else if 'A' ≤ c ∧ c ≤ 'F' then some (c.toNat - 55)
  else if 'a' ≤ c ∧ c ≤ 'f' then some (c.toNat - 87)
  else none

/-- The number that four hexadecimal digits stand for. -/
def fourHexValue? (a b c d : Char) : Option Nat := do
  return (← hexValue? a) * 4096 + (← hexValue? b) * 256 + (← hexValue? c) * 16 + (← hexValue? d)

/-- What a backslash and the letter stand for. -/
def unescape? (c : Char) : Option Char :=
  if c = '"' then some '"'
  else if c = '\\' then some '\\'
  else if c = 'n' then some '\n'
  else if c = 'r' then some '\r'
  else if c = 't' then some '\t'
  else none

/-- The value of a literal whose opening quote has been read, and the text behind the literal. -/
def readLiteral? : List Char → Option (List Char × List Char)
  | [] => none
  | '"' :: rest => some ([], rest)
  | '\\' :: 'u' :: a :: b :: c :: d :: rest => do
    let code ← fourHexValue? a b c d
    let (value, left) ← readLiteral? rest
    return (Char.ofNat code :: value, left)
  | '\\' :: letter :: rest => do
    let c ← unescape? letter
    let (value, left) ← readLiteral? rest
    return (c :: value, left)
  | c :: rest => do
    let (value, left) ← readLiteral? rest
    return (c :: value, left)

theorem length_of_readLiteral? {cs value left : List Char}
    (h : readLiteral? cs = some (value, left)) : left.length < cs.length := by
  fun_induction readLiteral? cs generalizing value left with
  | case1 => simp at h
  | case2 rest => simp_all
  | case3 a b c d rest ih =>
    simp only [Option.bind_eq_bind, Option.bind_eq_some_iff, Prod.exists, Option.pure_def] at h
    obtain ⟨_, _, v, l, hread, hpair⟩ := h
    have := ih hread
    simp_all
    omega
  | case4 letter rest _ ih =>
    simp only [Option.bind_eq_bind, Option.bind_eq_some_iff, Prod.exists, Option.pure_def] at h
    obtain ⟨_, _, v, l, hread, hpair⟩ := h
    have := ih hread
    simp_all
    omega
  | case5 c rest _ _ _ ih =>
    simp only [Option.bind_eq_bind, Option.bind_eq_some_iff, Prod.exists, Option.pure_def] at h
    obtain ⟨v, l, hread, hpair⟩ := h
    have := ih hread
    simp_all
    omega

theorem hexValue?_hexDigit {d : Nat} (h : d < 16) : hexValue? (hexDigit d) = some d := by
  have hall : ∀ k : Fin 16, hexValue? (hexDigit k) = some k.val := by decide
  exact hall ⟨d, h⟩

theorem fourHexValue?_fourHexDigits {n : Nat} (h : n < 65536) :
    fourHexValue? (hexDigit (n / 4096 % 16)) (hexDigit (n / 256 % 16)) (hexDigit (n / 16 % 16))
      (hexDigit (n % 16)) = some n := by
  have hdigit : ∀ k, hexValue? (hexDigit (k % 16)) = some (k % 16) :=
    fun k => hexValue?_hexDigit (Nat.mod_lt k (by decide))
  simp only [fourHexValue?, hdigit, Option.bind_eq_bind, Option.bind_some, Option.pure_def,
    Option.some.injEq]
  omega

theorem toNat_lt_of_isControl {c : Char} (h : isControl c = true) : c.toNat < 65536 := by
  simp only [isControl, Bool.or_eq_true, Bool.and_eq_true, decide_eq_true_eq] at h
  omega

/-- The three ways in which a character is written. -/
theorem escapeChar_cases (c : Char) :
    (∃ letter, escapeChar c = ['\\', letter] ∧ unescape? letter = some c) ∨
    (isControl c = true ∧ escapeChar c = '\\' :: 'u' :: fourHexDigits c.toNat) ∨
    (c ≠ '"' ∧ c ≠ '\\' ∧ isControl c = false ∧ escapeChar c = [c]) := by
  unfold escapeChar
  by_cases hquote : c = '"'
  · exact .inl ⟨'"', by simp [hquote], by simp [hquote, unescape?]⟩
  by_cases hbackslash : c = '\\'
  · exact .inl ⟨'\\', by simp [hbackslash], by simp [hbackslash, unescape?]⟩
  by_cases hfeed : c = '\n'
  · exact .inl ⟨'n', by simp [hfeed], by simp [hfeed, unescape?]⟩
  by_cases hreturn : c = '\r'
  · exact .inl ⟨'r', by simp [hreturn], by simp [hreturn, unescape?]⟩
  by_cases htab : c = '\t'
  · exact .inl ⟨'t', by simp [htab], by simp [htab, unescape?]⟩
  cases hcontrol : isControl c
  · refine .inr (.inr ⟨hquote, hbackslash, rfl, ?_⟩)
    simp [hquote, hbackslash, hfeed, hreturn, htab]
  · refine .inr (.inl ⟨rfl, ?_⟩)
    simp [hquote, hbackslash, hfeed, hreturn, htab]

theorem readLiteral?_escapeChar (c : Char) (rest : List Char) :
    readLiteral? (escapeChar c ++ rest) =
      (readLiteral? rest).map fun read => (c :: read.1, read.2) := by
  rcases escapeChar_cases c with ⟨letter, hescape, hletter⟩ | ⟨hcontrol, hescape⟩ | h
  · have hnotU : letter ≠ 'u' := by
      rintro rfl
      simp [unescape?] at hletter
    rw [hescape]
    cases hrest : readLiteral? rest <;> simp [readLiteral?, hletter, hnotU, hrest]
  · have hcode := fourHexValue?_fourHexDigits (toNat_lt_of_isControl hcontrol)
    rw [hescape]
    cases hrest : readLiteral? rest <;>
      simp [readLiteral?, fourHexDigits, hcode, Char.ofNat_toNat, hrest]
  · obtain ⟨hquote, hbackslash, -, hescape⟩ := h
    rw [hescape]
    cases hrest : readLiteral? rest <;> simp [readLiteral?, hbackslash, hrest]

/-- A written literal is read back whole, and what follows it is left. -/
theorem readLiteral?_escaped (cs rest : List Char) :
    readLiteral? (cs.flatMap escapeChar ++ '"' :: rest) = some (cs, rest) := by
  induction cs with
  | nil => rfl
  | cons c cs ih =>
    rw [List.flatMap_cons, List.append_assoc, readLiteral?_escapeChar, ih]
    rfl

/-- The value of a literal that the text begins with, and the text behind the literal. -/
def readQuoted? : List Char → Option (List Char × List Char)
  | '"' :: rest => readLiteral? rest
  | _ => none

theorem readQuoted?_literal (cs rest : List Char) :
    readQuoted? (literal cs ++ rest) = some (cs, rest) := by
  rw [literal, List.cons_append, List.append_assoc]
  exact readLiteral?_escaped cs rest

/-! ### What is written has no control characters -/

theorem isControl_of_unescape? {letter c : Char} (h : unescape? letter = some c) :
    isControl letter = false := by
  fun_cases unescape? letter with
  | case6 => simp_all [unescape?]
  | _ => subst letter; rfl

theorem isControl_hexDigit (n : Nat) : isControl (hexDigit (n % 16)) = false := by
  have hall : ∀ d : Fin 16, isControl (hexDigit d) = false := by decide
  exact hall ⟨n % 16, Nat.mod_lt n (by decide)⟩

theorem isControl_of_mem_escapeChar {c d : Char} (h : d ∈ escapeChar c) : isControl d = false := by
  rcases escapeChar_cases c with ⟨letter, hescape, hletter⟩ | ⟨-, hescape⟩ | ⟨-, -, hplain, hescape⟩
  · rw [hescape, List.mem_cons, List.mem_singleton] at h
    rcases h with rfl | rfl
    · rfl
    · exact isControl_of_unescape? hletter
  · simp only [hescape, fourHexDigits, List.mem_cons, List.not_mem_nil, or_false] at h
    rcases h with rfl | rfl | rfl | rfl | rfl | rfl
    · rfl
    · rfl
    all_goals exact isControl_hexDigit _
  · rw [hescape, List.mem_singleton] at h
    rw [h, hplain]

theorem isControl_of_mem_literal {cs : List Char} {d : Char} (h : d ∈ literal cs) :
    isControl d = false := by
  simp only [literal, List.mem_cons, List.mem_append, List.mem_flatMap, List.not_mem_nil,
    or_false] at h
  rcases h with rfl | ⟨c, -, hd⟩ | rfl
  · rfl
  · exact isControl_of_mem_escapeChar hd
  · rfl

end EntryTrace.Text

namespace EntryTrace

set_option autoImplicit false

open Text

/-- Any string can be printed: it is read back from what is printed, whatever follows, and no
control character shows. -/
theorem Node.print_stringLiteral_read_back (text : String) (span : Span) (layout : Layout)
    (rest : String) :
    let printed := (⟨.stringLiteral text, span, []⟩ : Node).print layout
    readQuoted? (printed ++ rest).toList = some (text.toList, rest.toList) ∧
      ∀ c ∈ printed.toList, ¬ (c.toNat ≤ 0x1F ∨ 0x7F ≤ c.toNat ∧ c.toNat ≤ 0x9F) := by
  intro printed
  have hprinted : printed.toList = literal text.toList := by
    have hrender := render_of_comments layout (n := ⟨.stringLiteral text, span, []⟩) rfl 0
    exact String.toList_ofList.trans hrender
  constructor
  · rw [String.toList_append, hprinted, readQuoted?_literal]
  · intro c hc
    rw [hprinted] at hc
    have hcontrol := isControl_of_mem_literal hc
    simp only [isControl, Bool.or_eq_false_iff, Bool.and_eq_false_iff, decide_eq_false_iff_not]
      at hcontrol
    omega

end EntryTrace
