import EntryTrace.Json.Scan
import EntryTrace.Json.Value
import EntryTrace.Proofs.Tokens

/-!
# Compact JSON text

The compact text of a value has no blanks. It can be read again: a string gives its characters back,
and the reader that passes over a value of any depth passes over exactly the text of the value, as
long as what follows does not go on with a number. The order in which members stand and the numbers
as they are written are kept.
-/

namespace EntryTrace

set_option autoImplicit false

namespace Json

/-! ### Writing -/

def digitText (d : Digit) : Char := Nat.digitChar d.val

def fractionText (digits : List Digit) : List Char :=
  if digits.isEmpty then [] else '.' :: digits.map digitText

/-- The exponent behind its mark, always with a sign. -/
def exponentText : Option Exponent → List Char
  | none => []
  | some e => 'e' :: (if e.negative then '-' else '+') :: (e.first :: e.rest).map digitText

/-- A number without its sign. -/
def Numeral.unsignedText (n : Numeral) : List Char :=
  Nat.toDigits 10 n.whole ++ (fractionText n.fraction ++ exponentText n.exponent)

def Numeral.text (n : Numeral) : List Char :=
  if n.negative then '-' :: n.unsignedText else n.unsignedText

/-- A character of a string: quotes, backslashes and control characters are escaped, the latter with
a letter of their own or with four digits. -/
def escaped (c : Char) : List Char :=
  if c = '"' then ['\\', '"']
  else if c = '\\' then ['\\', '\\']
  else if c = Char.ofNat 8 then ['\\', 'b']
  else if c = Char.ofNat 12 then ['\\', 'f']
  else if c = '\n' then ['\\', 'n']
  else if c = '\r' then ['\\', 'r']
  else if c = '\t' then ['\\', 't']
  else if c.toNat < 0x20 then
    ['\\', 'u', '0', '0', Nat.digitChar (c.toNat / 16), Nat.digitChar (c.toNat % 16)]
  else [c]

def stringText (value : String) : List Char := '"' :: (value.toList.flatMap escaped ++ ['"'])

mutual

/-- The text of a value without blanks. -/
def compact : Json → List Char
  | .null => ['n', 'u', 'l', 'l']
  | .bool value => if value then ['t', 'r', 'u', 'e'] else ['f', 'a', 'l', 's', 'e']
  | .number value => value.text
  | .string value => stringText value
  | .array elements => '[' :: ([','].intercalate (elementTexts elements) ++ [']'])
  | .object members => '{' :: ([','].intercalate (memberTexts members) ++ ['}'])

def elementTexts : List Json → List (List Char)
  | [] => []
  | element :: elements => compact element :: elementTexts elements

def memberTexts : List (String × Json) → List (List Char)
  | [] => []
  | member :: members => memberText member :: memberTexts members

def memberText : String × Json → List Char
  | (key, value) => stringText key ++ ':' :: compact value

end

theorem elementTexts_eq (elements : List Json) : elementTexts elements = elements.map compact := by
  induction elements with
  | nil => rfl
  | cons element elements ih => rw [elementTexts, ih, List.map_cons]

theorem memberTexts_eq (members : List (String × Json)) :
    memberTexts members = members.map memberText := by
  induction members with
  | nil => rfl
  | cons member members ih => rw [memberTexts, ih, List.map_cons]

/-- What holds of a value as soon as it holds of its parts holds of every value. -/
theorem induction {P : Json → Prop} (null : P .null) (bool : ∀ value, P (.bool value))
    (number : ∀ value, P (.number value)) (string : ∀ value, P (.string value))
    (array : ∀ elements : List Json, (∀ element ∈ elements, P element) → P (.array elements))
    (object : ∀ members : List (String × Json), (∀ member ∈ members, P member.2) →
      P (.object members))
    (value : Json) : P value := by
  -- a value, its two kinds of lists and a single member each have a motive of their own
  refine @Json.rec P (fun elements => ∀ element ∈ elements, P element)
    (fun members => ∀ member ∈ members, P member.2) (fun member => P member.2) null bool number
    string (fun elements => array elements) (fun members => object members) ?_ ?_ ?_ ?_ ?_ value
  all_goals simp_all

/-! ### Numbers -/

variable {cs rest : List Char}

/-- The text does not go on with a number. -/
def EndsNumber (rest : List Char) : Prop :=
  ∀ c ∈ rest.head?, isDigit c = false ∧ c ≠ '.' ∧ c ≠ 'e' ∧ c ≠ 'E'

theorem isDigit_digitText (d : Digit) : isDigit (digitText d) = true := by
  revert d
  decide

theorem ofChar_digitText (d : Digit) : Digit.ofChar (digitText d) = d := by
  revert d
  decide

theorem readDigits_append (hcs : ∀ c ∈ cs, isDigit c = true)
    (hrest : ∀ c ∈ rest.head?, isDigit c = false) :
    readDigits (cs ++ rest) = (cs.map Digit.ofChar, rest) := by
  obtain ⟨htaken, hleft⟩ := Text.takeWhile_append_of_head hcs hrest
  rw [readDigits, htaken, hleft]

theorem readDigits_digitText (digits : List Digit)
    (hrest : ∀ c ∈ rest.head?, isDigit c = false) :
    readDigits (digits.map digitText ++ rest) = (digits, rest) := by
  have hdigits : ∀ c ∈ digits.map digitText, isDigit c = true :=
    List.forall_mem_map.mpr fun d _ => isDigit_digitText d
  rw [readDigits_append hdigits hrest, List.map_map]
  simp [Function.comp_def, ofChar_digitText]

theorem isDigit_of_mem_toDigits {n : Nat} {c : Char} (h : c ∈ Nat.toDigits 10 n) :
    isDigit c = true :=
  Nat.isDigit_of_mem_toDigits (by decide) (by decide) h

theorem val_ofChar_digitChar {d : Nat} (h : d < 10) :
    (Digit.ofChar (Nat.digitChar d)).val = d :=
  congrArg Fin.val (ofChar_digitText ⟨d, h⟩)

/-- The digits of a number have its value. -/
theorem foldl_toDigits (n : Nat) :
    ((Nat.toDigits 10 n).map Digit.ofChar).foldl (fun n d => n * 10 + d.val) 0 = n := by
  induction n using Nat.strongRecOn with
  | _ n ih =>
    rcases Nat.lt_or_ge n 10 with h | h
    · simp [Nat.toDigits_of_lt_base h, val_ofChar_digitChar h]
    · rw [Nat.toDigits_of_base_le (by decide) h, List.map_append, List.foldl_append,
        ih (n / 10) (by omega)]
      simp only [List.map_cons, List.map_nil, List.foldl_cons, List.foldl_nil,
        val_ofChar_digitChar (Nat.mod_lt n (by decide : 10 > 0))]
      omega

/-- Only zero is written with a zero in front. -/
theorem head?_toDigits_ne {n : Nat} (h : 0 < n) : (Nat.toDigits 10 n).head? ≠ some '0' := by
  induction n using Nat.strongRecOn with
  | _ n ih =>
    rcases Nat.lt_or_ge n 10 with hlt | hge
    · have hdigit : ∀ d < 10, 0 < d → [Nat.digitChar d].head? ≠ some '0' := by decide
      rw [Nat.toDigits_of_lt_base hlt]
      exact hdigit n hlt h
    · have hfront := ih (n / 10) (by omega) (by omega)
      rw [Nat.toDigits_of_base_le (by decide) hge]
      cases hdigits : Nat.toDigits 10 (n / 10) with
      | nil => exact absurd hdigits Nat.toDigits_ne_nil
      | cons c cs => simpa [hdigits] using hfront

theorem readWhole_toDigits (atEnd : Fault) (n : Nat)
    (hrest : ∀ c ∈ rest.head?, isDigit c = false) :
    readWhole atEnd (Nat.toDigits 10 n ++ rest) = .ok (n, rest) := by
  rcases Nat.eq_zero_or_pos n with rfl | hpos
  · have hnone : rest.head?.any isDigit = false := by
      cases rest with
      | nil => rfl
      | cons c rest => simpa using hrest c rfl
    simp [readWhole, hnone]
  · have hdigit : ∀ c ∈ Nat.toDigits 10 n, isDigit c = true := fun c => isDigit_of_mem_toDigits
    have hread := readDigits_append hdigit hrest
    have hvalue := foldl_toDigits n
    have hzero := head?_toDigits_ne hpos
    cases hdigits : Nat.toDigits 10 n with
    | nil => exact absurd hdigits Nat.toDigits_ne_nil
    | cons c cs =>
      simp only [hdigits, List.cons_append, List.head?_cons, ne_eq, Option.some.injEq]
        at hread hvalue hzero
      have hc : isDigit c = true := hdigit c (by simp [hdigits])
      simp only [readWhole, List.cons_append, hzero, hc, hread, hvalue, ↓reduceIte]

theorem readFraction_text (atEnd : Fault) (digits : List Digit)
    (hrest : ∀ c ∈ rest.head?, isDigit c = false ∧ c ≠ '.') :
    readFraction atEnd (fractionText digits ++ rest) = .ok (digits, rest) := by
  cases digits with
  | nil =>
    cases rest with
    | nil => rfl
    | cons c rest => simp [fractionText, readFraction, (hrest c rfl).2]
  | cons d digits =>
    have hread := readDigits_digitText (d :: digits) fun c hc => (hrest c hc).1
    simp only [fractionText, List.isEmpty_cons, Bool.false_eq_true, ↓reduceIte, List.cons_append,
      readFraction]
    rw [hread]

theorem readExponent_text (atEnd : Fault) (exponent : Option Exponent) (hrest : EndsNumber rest) :
    readExponent atEnd (exponentText exponent ++ rest) = .ok (exponent, rest) := by
  cases exponent with
  | none =>
    cases rest with
    | nil => rfl
    | cons c rest => simp [exponentText, readExponent, (hrest c rfl).2.2]
  | some e =>
    obtain ⟨negative, first, digits⟩ := e
    have hread := readDigits_digitText digits fun c hc => (hrest c hc).1
    have hfirst := isDigit_digitText first
    cases negative
    · simp [exponentText, readExponent, hread, hfirst, ofChar_digitText]
    · simp [exponentText, readExponent, hread, hfirst, ofChar_digitText]

/-- A number is read back as it was written. -/
theorem readNumeral_text (atEnd : Fault) (n : Numeral) (hrest : EndsNumber rest) :
    readNumeral atEnd n.negative (n.unsignedText ++ rest) = .ok (n, rest) := by
  have hexponent : ∀ c ∈ (exponentText n.exponent ++ rest).head?, isDigit c = false ∧ c ≠ '.' := by
    cases n.exponent with
    | none => exact fun c hc => ⟨(hrest c hc).1, (hrest c hc).2.1⟩
    | some e => simp [exponentText, isDigit]
  have hfraction : ∀ c ∈ (fractionText n.fraction ++ (exponentText n.exponent ++ rest)).head?,
      isDigit c = false := by
    cases n.fraction with
    | nil => exact fun c hc => (hexponent c hc).1
    | cons d digits => simp [fractionText, isDigit]
  simp [Numeral.unsignedText, readNumeral, readWhole_toDigits atEnd n.whole hfraction,
    readFraction_text atEnd n.fraction hexponent, readExponent_text atEnd n.exponent hrest]

/-! ### Strings -/

theorem readText_quote (rest : List Char) : readText ('"' :: rest) = .ok ([], rest) := by
  rw [readText, if_pos rfl]

theorem skipText_quote (rest : List Char) : skipText ('"' :: rest) = .ok rest := by
  rw [skipText, if_pos rfl]

theorem readText_escape {c : Char} (h : readEscape cs = .ok (c, rest)) :
    readText ('\\' :: cs) = Reading.cons c (readText rest) := by
  rw [readText, if_neg (by decide), if_pos rfl]
  split
  · simp_all
  · simp_all

theorem skipText_escape (h : skipEscape cs = .ok rest) :
    skipText ('\\' :: cs) = skipText rest := by
  rw [skipText, if_neg (by decide), if_pos rfl]
  split
  · simp_all
  · simp_all

theorem hexValue?_digitChar {d : Nat} (h : d < 16) : hexValue? (Nat.digitChar d) = some d := by
  have hall : ∀ d < 16, hexValue? (Nat.digitChar d) = some d := by decide
  exact hall d h

theorem readHex_digitChar {n : Nat} (h : n < 256) (rest : List Char) :
    readHex ('0' :: '0' :: Nat.digitChar (n / 16) :: Nat.digitChar (n % 16) :: rest) =
      .ok (n, rest) := by
  have hlong : ¬ Text.byteLength
      ('0' :: '0' :: Nat.digitChar (n / 16) :: Nat.digitChar (n % 16) :: rest) < 4 := by
    have hlength := Text.length_le_byteLength
      ('0' :: '0' :: Nat.digitChar (n / 16) :: Nat.digitChar (n % 16) :: rest)
    simp only [List.length_cons] at hlength
    omega
  have hzero : hexValue? '0' = some 0 := rfl
  have hhigh : hexValue? (Nat.digitChar (n / 16)) = some (n / 16) :=
    hexValue?_digitChar (by omega)
  have hlow : hexValue? (Nat.digitChar (n % 16)) = some (n % 16) :=
    hexValue?_digitChar (Nat.mod_lt n (by decide))
  have hvalue : ((0 * 16 + 0) * 16 + n / 16) * 16 + n % 16 = n := by omega
  simp only [readHex, hlong, hzero, hhigh, hlow, hvalue, ↓reduceIte]

/-- Every character is escaped in one of three ways. -/
theorem escaped_cases (c : Char) :
    (∃ letter, letter ≠ 'u' ∧ shortEscape? letter = some c ∧ escaped c = ['\\', letter]) ∨
    (c.toNat < 0x20 ∧ escaped c =
      ['\\', 'u', '0', '0', Nat.digitChar (c.toNat / 16), Nat.digitChar (c.toNat % 16)]) ∨
    (c ≠ '"' ∧ c ≠ '\\' ∧ 0x20 ≤ c.toNat ∧ escaped c = [c]) := by
  by_cases hquote : c = '"'
  · subst hquote
    exact .inl ⟨'"', by decide⟩
  by_cases hback : c = '\\'
  · subst hback
    exact .inl ⟨'\\', by decide⟩
  by_cases hshort : c = Char.ofNat 8 ∨ c = Char.ofNat 12 ∨ c = '\n' ∨ c = '\r' ∨ c = '\t'
  · left
    rcases hshort with rfl | rfl | rfl | rfl | rfl
    · exact ⟨'b', by decide⟩
    · exact ⟨'f', by decide⟩
    · exact ⟨'n', by decide⟩
    · exact ⟨'r', by decide⟩
    · exact ⟨'t', by decide⟩
  · right
    simp only [not_or] at hshort
    obtain ⟨hb, hf, hn, hr, ht⟩ := hshort
    by_cases hcontrol : c.toNat < 0x20
    · refine .inl ⟨hcontrol, ?_⟩
      simp only [escaped, hquote, hback, hb, hf, hn, hr, ht, hcontrol, ↓reduceIte]
    · refine .inr ⟨hquote, hback, by omega, ?_⟩
      simp only [escaped, hquote, hback, hb, hf, hn, hr, ht, hcontrol, ↓reduceIte]

theorem readText_escaped (c : Char) (rest : List Char) :
    readText (escaped c ++ rest) = Reading.cons c (readText rest) := by
  rcases escaped_cases c with ⟨letter, hletter, hmeant, htext⟩ | ⟨hcontrol, htext⟩ |
    ⟨hquote, hback, hplain, htext⟩
  · rw [htext]
    exact readText_escape (by simp [readEscape, hletter, hmeant])
  · have hhex := readHex_digitChar (by omega : c.toNat < 256) rest
    have hlow : isLowSurrogate c.toNat = false := by simp [isLowSurrogate]; omega
    have hhigh : isHighSurrogate c.toNat = false := by simp [isHighSurrogate]; omega
    rw [htext]
    exact readText_escape (by simp [readEscape, hhex, hlow, hhigh])
  · rw [htext, List.singleton_append, readText, if_neg hquote, if_neg hback, if_neg (by omega)]

theorem skipText_escaped (c : Char) (rest : List Char) :
    skipText (escaped c ++ rest) = skipText rest := by
  rcases escaped_cases c with ⟨letter, hletter, hmeant, htext⟩ | ⟨hcontrol, htext⟩ |
    ⟨hquote, hback, hplain, htext⟩
  · rw [htext]
    exact skipText_escape (by simp [skipEscape, hletter, hmeant])
  · have hhex := readHex_digitChar (by omega : c.toNat < 256) rest
    rw [htext]
    exact skipText_escape (by simp [skipEscape, hhex, Except.map])
  · rw [htext, List.singleton_append, skipText, if_neg hquote, if_neg hback, if_neg (by omega)]

/-- A string is read back: what it is escaped for never ends it early. -/
theorem readText_flatMap (cs rest : List Char) :
    readText (cs.flatMap escaped ++ '"' :: rest) = .ok (cs, rest) := by
  induction cs with
  | nil => exact readText_quote rest
  | cons c cs ih =>
    rw [List.flatMap_cons, List.append_assoc, readText_escaped, ih, Reading.cons]

theorem skipText_flatMap (cs rest : List Char) :
    skipText (cs.flatMap escaped ++ '"' :: rest) = .ok rest := by
  induction cs with
  | nil => exact skipText_quote rest
  | cons c cs ih => rw [List.flatMap_cons, List.append_assoc, skipText_escaped, ih]

/-! ### Whole values -/

def Bracket.opening : Bracket → Char
  | .list => '['
  | .object => '{'

def Bracket.closing : Bracket → Char
  | .list => ']'
  | .object => '}'

/-- What stands between commas in the bracket. -/
def Bracket.part : Bracket → Awaiting
  | .list => .value
  | .object => .entry

theorem skipBlanks_cons {c : Char} (h : isBlank c = false) (cs : List Char) :
    skipBlanks (c :: cs) = c :: cs := by
  simp [skipBlanks, h]

theorem endsNumber_cons {c : Char} (h : c = ',' ∨ c = ']' ∨ c = '}') (rest : List Char) :
    EndsNumber (c :: rest) := by
  rcases h with rfl | rfl | rfl <;> simp [EndsNumber, isDigit]

section

variable {opened : List Bracket}

theorem skip_scalar {c : Char} (hblank : isBlank c = false) (hlist : c ≠ '[') (hobject : c ≠ '{')
    (h : skipScalar (c :: cs) = .ok rest) :
    skip .value opened (c :: cs) = skip .follower opened rest := by
  have hopen := skipBlanks_cons hblank cs
  rw [skip]
  grind

theorem skip_entry (h : skipKey cs = .ok rest) :
    skip .entry opened cs = skip .value opened rest := by
  -- only the left side takes a step
  conv => lhs; rw [skip]
  grind

theorem skip_empty (b : Bracket) :
    skip .value opened (b.opening :: b.closing :: rest) = skip .follower opened rest := by
  have hopen : skipBlanks (b.opening :: b.closing :: rest) = b.opening :: b.closing :: rest :=
    skipBlanks_cons (by cases b <;> rfl) _
  have hclose : skipBlanks (b.closing :: rest) = b.closing :: rest :=
    skipBlanks_cons (by cases b <;> rfl) _
  rw [skip]
  cases b <;> grind [Bracket.opening, Bracket.closing]

theorem skip_opening (b : Bracket) {c : Char} (hblank : isBlank c = false)
    (hclose : c ≠ b.closing) :
    skip .value opened (b.opening :: c :: cs) = skip b.part (b :: opened) (c :: cs) := by
  have hopen : skipBlanks (b.opening :: c :: cs) = b.opening :: c :: cs :=
    skipBlanks_cons (by cases b <;> rfl) _
  have hfirst := skipBlanks_cons hblank cs
  conv => lhs; rw [skip]
  cases b <;> grind [Bracket.opening, Bracket.closing, Bracket.part]

theorem skip_comma (b : Bracket) :
    skip .follower (b :: opened) (',' :: rest) = skip b.part (b :: opened) rest := by
  have hcomma := skipBlanks_cons (by decide : isBlank ',' = false) rest
  cases b
  · conv => lhs; rw [skip]
    grind [Bracket.part]
  · conv => lhs; rw [skip]
    grind [Bracket.part]

theorem skip_closing (b : Bracket) :
    skip .follower (b :: opened) (b.closing :: rest) = skip .follower opened rest := by
  have hclose : skipBlanks (b.closing :: rest) = b.closing :: rest :=
    skipBlanks_cons (by cases b <;> rfl) _
  cases b
  · conv => lhs; rw [skip]
    grind [Bracket.closing]
  · conv => lhs; rw [skip]
    grind [Bracket.closing]

end

/-- A text that is passed over where it is awaited, whatever is open and whatever follows. -/
structure Passes (awaiting : Awaiting) (text : List Char) : Prop where
  starts : ∃ c cs, text = c :: cs ∧ isBlank c = false ∧ c ≠ ']' ∧ c ≠ '}'
  skip_append : ∀ opened rest, EndsNumber rest →
    skip awaiting opened (text ++ rest) = skip .follower opened rest

/-- What follows the first part of a bracket: each later part behind its comma, and the end. -/
def Bracket.later (b : Bracket) (texts : List (List Char)) (rest : List Char) : List Char :=
  texts.flatMap ([','] ++ ·) ++ b.closing :: rest

theorem Bracket.later_cons (b : Bracket) (text : List Char) (texts : List (List Char))
    (rest : List Char) : b.later (text :: texts) rest = ',' :: (text ++ b.later texts rest) := by
  simp [later]

theorem intercalate_append_closing (b : Bracket) (text : List Char) (texts : List (List Char))
    (rest : List Char) :
    [','].intercalate (text :: texts) ++ b.closing :: rest = text ++ b.later texts rest := by
  rw [Form.intercalate_cons_eq, List.append_assoc, Bracket.later]

theorem endsNumber_later (b : Bracket) (texts : List (List Char)) (rest : List Char) :
    EndsNumber (b.later texts rest) := by
  cases texts with
  | nil => exact endsNumber_cons (by cases b <;> simp [Bracket.closing]) rest
  | cons text texts => exact endsNumber_cons (.inl rfl) _

theorem skip_later (b : Bracket) (texts : List (List Char))
    (h : ∀ text ∈ texts, Passes b.part text) (opened : List Bracket) (rest : List Char) :
    skip .follower (b :: opened) (b.later texts rest) = skip .follower opened rest := by
  induction texts with
  | nil => exact skip_closing b
  | cons text texts ih =>
    calc
      _ = skip .follower (b :: opened) (',' :: (text ++ b.later texts rest)) := by
        rw [Bracket.later_cons]
      _ = skip b.part (b :: opened) (text ++ b.later texts rest) := skip_comma b
      _ = skip .follower (b :: opened) (b.later texts rest) :=
        (h text (by simp)).skip_append _ _ (endsNumber_later b texts rest)
      _ = skip .follower opened rest := ih fun t ht => h t (by simp [ht])

/-- A bracket is passed over if each of its parts is. -/
theorem passes_bracket (b : Bracket) (texts : List (List Char))
    (h : ∀ text ∈ texts, Passes b.part text) :
    Passes .value (b.opening :: ([','].intercalate texts ++ [b.closing])) := by
  refine ⟨⟨b.opening, _, rfl, by cases b <;> decide⟩, ?_⟩
  intro opened rest _
  cases texts with
  | nil => exact skip_empty b
  | cons text texts =>
    obtain ⟨⟨c, cs, htext, hblank, hlist, hobject⟩, hpass⟩ := h text (by simp)
    have hclose : c ≠ b.closing := by cases b <;> assumption
    calc
      _ = skip .value opened (b.opening :: (text ++ b.later texts rest)) := by
        rw [List.cons_append, List.append_assoc, List.singleton_append, intercalate_append_closing]
      _ = skip b.part (b :: opened) (text ++ b.later texts rest) := by
        rw [htext]
        exact skip_opening b hblank hclose
      _ = skip .follower (b :: opened) (b.later texts rest) :=
        hpass _ _ (endsNumber_later b texts rest)
      _ = skip .follower opened rest := skip_later b texts (fun t ht => h t (by simp [ht])) _ _

theorem passes_scalar {c : Char} (hblank : isBlank c = false)
    (hmark : c ∉ ['[', ']', '{', '}'])
    (h : ∀ rest, EndsNumber rest → skipScalar (c :: (cs ++ rest)) = .ok rest) :
    Passes .value (c :: cs) := by
  simp only [List.mem_cons, List.not_mem_nil, or_false, not_or] at hmark
  obtain ⟨hlist, hlistEnd, hobject, hobjectEnd⟩ := hmark
  refine ⟨⟨c, cs, rfl, hblank, hlistEnd, hobjectEnd⟩, ?_⟩
  intro opened rest hrest
  exact skip_scalar hblank hlist hobject (h rest hrest)

/-- The characters other than digits that begin a value, close a bracket or are blank. -/
def marks : List Char := ['n', 't', 'f', '"', '-', '[', ']', '{', '}', ' ', '\n', '\t', '\r']

theorem not_mem_marks {c : Char} (h : isDigit c = true) : c ∉ marks := by
  have hmarks : marks.all (!isDigit ·) = true := by decide
  intro hc
  have hnot := List.all_eq_true.mp hmarks c hc
  simp [h] at hnot

theorem exists_unsignedText (n : Numeral) :
    ∃ c cs, n.unsignedText = c :: cs ∧ isDigit c = true := by
  cases hdigits : Nat.toDigits 10 n.whole with
  | nil => exact absurd hdigits Nat.toDigits_ne_nil
  | cons c cs =>
    refine ⟨c, _, by rw [Numeral.unsignedText, hdigits, List.cons_append], ?_⟩
    exact isDigit_of_mem_toDigits (n := n.whole) (by simp [hdigits])

theorem passes_number (n : Numeral) : Passes .value n.text := by
  cases hsign : n.negative with
  | true =>
    have hminus : n.text = '-' :: n.unsignedText := by simp [Numeral.text, hsign]
    rw [hminus]
    refine passes_scalar (by decide) (by decide) ?_
    intro rest hrest
    simp [skipScalar, ← hsign, readNumeral_text .invalidNumber n hrest, Except.map]
  | false =>
    -- the number is recognized by its first digit, which is read again as a part of it
    obtain ⟨c, cs, htext, hdigit⟩ := exists_unsignedText n
    have hmark := not_mem_marks hdigit
    simp only [marks, List.mem_cons, List.not_mem_nil, or_false, not_or] at hmark
    have hplain : n.text = c :: cs := by simp [Numeral.text, hsign, htext]
    rw [hplain]
    refine passes_scalar (by simp [isBlank, hmark]) (by simp [hmark]) ?_
    intro rest hrest
    have hnumeral := readNumeral_text .invalidNumber n hrest
    rw [htext, hsign, List.cons_append] at hnumeral
    simp [skipScalar, hmark, hdigit, hnumeral, Except.map]

theorem passes_string (value : String) : Passes .value (stringText value) := by
  refine passes_scalar (by decide) (by decide) ?_
  intro rest _
  simp [skipScalar, skipText_flatMap]

theorem skipKey_stringText (key : String) (rest : List Char) :
    skipKey (stringText key ++ ':' :: rest) = .ok rest := by
  simp [skipKey, stringText, skipBlanks_cons, skipText_flatMap, isBlank]

theorem passes_member {member : String × Json} (h : Passes .value member.2.compact) :
    Passes .entry (memberText member) := by
  obtain ⟨key, value⟩ := member
  refine ⟨⟨'"', _, by rw [memberText, stringText]; rfl, by decide⟩, ?_⟩
  intro opened rest hrest
  rw [memberText, List.append_assoc, List.cons_append, skip_entry (skipKey_stringText key _)]
  exact h.skip_append opened rest hrest

/-- A value of any depth is passed over as a whole, and nothing behind it. -/
theorem passes_compact (value : Json) : Passes .value value.compact := by
  induction value using Json.induction with
  | null => exact passes_scalar (by decide) (by decide) (by simp [skipScalar, skipWord])
  | bool value =>
    cases value
    · exact passes_scalar (by decide) (by decide) (by simp [skipScalar, skipWord])
    · exact passes_scalar (by decide) (by decide) (by simp [skipScalar, skipWord])
  | number value => exact passes_number value
  | string value => exact passes_string value
  | array elements ih =>
    rw [compact, elementTexts_eq]
    exact passes_bracket .list _ (List.forall_mem_map.mpr ih)
  | object members ih =>
    rw [compact, memberTexts_eq]
    exact passes_bracket .object _ (List.forall_mem_map.mpr fun m hm => passes_member (ih m hm))

example : String.ofList (compact (.object [("a", .array [.string "\x7d\"", .bool true]),
    ("b\n", .number ⟨true, 20, [5], some ⟨false, 7, []⟩⟩), ("c", .object [])])) =
    "\x7b\"a\":[\"\x7d\\\"\",true],\"b\\n\":-20.5e+7,\"c\":\x7b\x7d\x7d" := by
  decide

end Json

end EntryTrace
