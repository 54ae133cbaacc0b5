import EntryTrace.Json.Fault

/-!
# Reading JSON text

Readers for the parts of JSON text, and `skip`, which passes over a whole value without keeping it.
Values may be nested to any depth, so `skip` holds the brackets still open in a list and looks at
the text once from front to back: every step leaves less text than it found.
-/

namespace EntryTrace.Json

set_option autoImplicit false

/-! ### Blanks, words and digits -/

def isBlank (c : Char) : Bool := c = ' ' || c = '\n' || c = '\t' || c = '\r'

def skipBlanks (cs : List Char) : List Char := cs.dropWhile isBlank

theorem length_skipBlanks_le (cs : List Char) : (skipBlanks cs).length ≤ cs.length :=
  (List.dropWhile_suffix isBlank).length_le

/-- Passes over the letters of a word. -/
def skipWord : List Char → List Char → Except Stop (List Char)
  | [], cs => .ok cs
  | _ :: _, [] => .error (.before .endInValue [])
  | w :: ws, c :: cs =>
    if c = w then skipWord ws cs else .error (.behind .expectedWord (c :: cs))

theorem length_of_skipWord {ws cs rest : List Char} (h : skipWord ws cs = .ok rest) :
    rest.length ≤ cs.length := by
  induction ws generalizing cs with
  | nil =>
    simp only [skipWord, Except.ok.injEq] at h
    simp [h]
  | cons w ws ih =>
    cases cs with
    | nil => simp [skipWord] at h
    | cons c cs =>
      simp only [skipWord] at h
      split at h
      · exact Nat.le_succ_of_le (ih h)
      · simp at h

def isDigit (c : Char) : Bool := '0' ≤ c && c ≤ '9'

/-- The digits at the front and what follows them. -/
def readDigits (cs : List Char) : List Digit × List Char :=
  ((cs.takeWhile isDigit).map Digit.ofChar, cs.dropWhile isDigit)

theorem length_readDigits_le (cs : List Char) : (readDigits cs).2.length ≤ cs.length :=
  (List.dropWhile_suffix isDigit).length_le

/-! ### Numbers -/

/-- The exponent, if there is one. `atEnd` is the fault of a text that ends inside the number. -/
def readExponent (atEnd : Fault) (cs : List Char) : Reading (Option Exponent) :=
  match cs with
  | c :: rest =>
    if c = 'e' || c = 'E' then
      let negative := rest.head? == some '-'
      let digits := if negative || rest.head? == some '+' then rest.tail else rest
      match digits with
      | [] => .error (.before atEnd [])
      | d :: more =>
        if isDigit d then
          .ok (some ⟨negative, Digit.ofChar d, (readDigits more).1⟩, (readDigits more).2)
        else .error (.behind .invalidNumber (d :: more))
    else .ok (none, c :: rest)
  | [] => .ok (none, [])

/-- The digits after a point, if there is one: then there is at least one. -/
def readFraction (atEnd : Fault) (cs : List Char) : Reading (List Digit) :=
  match cs with
  | '.' :: rest =>
    match readDigits rest with
    | ([], []) => .error (.behind atEnd [])
    | ([], more) => .error (.behind .invalidNumber more)
    | (digits, more) => .ok (digits, more)
  | rest => .ok ([], rest)

/-- The whole part: a single zero, or digits that do not start with one. -/
def readWhole (atEnd : Fault) (cs : List Char) : Reading Nat :=
  match cs with
  | [] => .error (.before atEnd [])
  | c :: rest =>
    if c = '0' then
      if rest.head?.any isDigit then .error (.behind .invalidNumber rest) else .ok (0, rest)
    else if isDigit c then
      .ok ((readDigits (c :: rest)).1.foldl (fun n d => n * 10 + d.val) 0,
        (readDigits (c :: rest)).2)
    else .error (.behind .invalidNumber (c :: rest))

/-- A number after its sign. -/
def readNumeral (atEnd : Fault) (negative : Bool) (cs : List Char) : Reading Numeral :=
  match readWhole atEnd cs with
  | .error stop => .error stop
  | .ok (whole, rest) =>
    match readFraction atEnd rest with
    | .error stop => .error stop
    | .ok (fraction, rest) =>
      match readExponent atEnd rest with
      | .error stop => .error stop
      | .ok (exponent, rest) => .ok (⟨negative, whole, fraction, exponent⟩, rest)

theorem length_of_readExponent {atEnd : Fault} {cs rest : List Char} {e : Option Exponent}
    (h : readExponent atEnd cs = .ok (e, rest)) : rest.length ≤ cs.length := by
  unfold readExponent at h
  split at h
  · rename_i c tail
    split at h
    · dsimp only at h
      split at h
      · simp at h
      · rename_i d more hdigits
        split at h
        · simp only [Except.ok.injEq, Prod.mk.injEq] at h
          have hmore := length_readDigits_le more
          have hle : (d :: more).length ≤ tail.length := by
            rw [← hdigits]
            split <;> simp
          rw [← h.2]
          simp only [List.length_cons] at hle ⊢
          omega
        · simp at h
    · simp only [Except.ok.injEq, Prod.mk.injEq] at h
      simp [← h.2]
  · simp only [Except.ok.injEq, Prod.mk.injEq] at h
    simp [← h.2]

theorem length_of_readFraction {atEnd : Fault} {cs rest : List Char} {ds : List Digit}
    (h : readFraction atEnd cs = .ok (ds, rest)) : rest.length ≤ cs.length := by
  unfold readFraction at h
  split at h
  · rename_i tail
    have hle := length_readDigits_le tail
    split at h
    · simp at h
    · simp at h
    · rename_i digits more _ _ hread
      simp only [hread] at hle
      simp only [Except.ok.injEq, Prod.mk.injEq] at h
      rw [← h.2]
      simp only [List.length_cons]
      omega
  · simp only [Except.ok.injEq, Prod.mk.injEq] at h
    simp [← h.2]

theorem length_of_readWhole {atEnd : Fault} {cs rest : List Char} {n : Nat}
    (h : readWhole atEnd cs = .ok (n, rest)) : rest.length < cs.length := by
  unfold readWhole at h
  split at h
  · simp at h
  · rename_i c tail
    split at h
    · split at h
      · simp at h
      · simp only [Except.ok.injEq, Prod.mk.injEq] at h
        simp [← h.2]
    · split at h
      · rename_i hdigit
        simp only [Except.ok.injEq, Prod.mk.injEq] at h
        have hle := length_readDigits_le tail
        rw [← h.2]
        simp only [readDigits, List.dropWhile_cons, hdigit, ↓reduceIte, List.length_cons] at hle ⊢
        omega
      · simp at h

theorem length_of_readNumeral {atEnd : Fault} {negative : Bool} {cs rest : List Char} {n : Numeral}
    (h : readNumeral atEnd negative cs = .ok (n, rest)) : rest.length < cs.length := by
  unfold readNumeral at h
  split at h
  · simp at h
  · rename_i whole afterWhole hwhole
    split at h
    · simp at h
    · rename_i fraction afterFraction hfraction
      split at h
      · simp at h
      · rename_i exponent afterExponent hexponent
        simp only [Except.ok.injEq, Prod.mk.injEq] at h
        have h₁ := length_of_readWhole hwhole
        have h₂ := length_of_readFraction hfraction
        have h₃ := length_of_readExponent hexponent
        rw [← h.2]
        omega

/-! ### Strings -/

/-- The character meant by a backslash and one character. -/
def shortEscape? (c : Char) : Option Char :=
  if c = '"' || c = '\\' || c = '/' then some c
  else if c = 'b' then some (Char.ofNat 8)
  else if c = 'f' then some (Char.ofNat 12)
  else if c = 'n' then some '\n'
  else if c = 'r' then some '\r'
  else if c = 't' then some '\t'
  else none

def hexValue? (c : Char) : Option Nat :=
  if '0' ≤ c && c ≤ '9' then some (c.toNat - 48)
  else if 'a' ≤ c && c ≤ 'f' then some (c.toNat - 87)
  else if 'A' ≤ c && c ≤ 'F' then some (c.toNat - 55)
  else none

/-- The value of four hexadecimal digits. Four bytes are taken in any case, so a wrong digit is
reported behind all of them. -/
def readHex (cs : List Char) : Reading Nat :=
  if Text.byteLength cs < 4 then .error (.before .endInString [])
  else
    match cs with
    | a :: b :: c :: d :: rest =>
      match hexValue? a, hexValue? b, hexValue? c, hexValue? d with
      | some a, some b, some c, some d => .ok (((a * 16 + b) * 16 + c) * 16 + d, rest)
      | _, _, _, _ => .error ⟨.invalidEscape, Text.byteLength cs - 4⟩
    | _ => .error ⟨.invalidEscape, Text.byteLength cs - 4⟩

def isHighSurrogate (unit : Nat) : Bool := 0xD800 ≤ unit && unit ≤ 0xDBFF

def isLowSurrogate (unit : Nat) : Bool := 0xDC00 ≤ unit && unit ≤ 0xDFFF

/-- One character of the escape that has to follow a high surrogate. -/
def expectInPair (wanted : Char) : List Char → Except Stop (List Char)
  | [] => .error (.before .endInString [])
  | c :: rest => if c = wanted then .ok rest else .error (.behind .unfinishedPair (c :: rest))

/-- The second half of a surrogate pair, and the character that both halves make. -/
def readLowSurrogate (high : Nat) (cs : List Char) : Reading Char :=
  match expectInPair '\\' cs with
  | .error stop => .error stop
  | .ok rest =>
    match expectInPair 'u' rest with
    | .error stop => .error stop
    | .ok rest =>
      match readHex rest with
      | .error stop => .error stop
      | .ok (low, rest) =>
        if isLowSurrogate low then
          .ok (Char.ofNat (0x10000 + (high - 0xD800) * 0x400 + (low - 0xDC00)), rest)
        else .error (.before .loneSurrogate rest)

/-- An escape after its backslash. -/
def readEscape (cs : List Char) : Reading Char :=
  match cs with
  | [] => .error (.before .endInString [])
  | c :: rest =>
    if c = 'u' then
      match readHex rest with
      | .error stop => .error stop
      | .ok (unit, rest) =>
        if isLowSurrogate unit then .error (.before .loneSurrogate rest)
        else if isHighSurrogate unit then readLowSurrogate unit rest
        else .ok (Char.ofNat unit, rest)
    else
      match shortEscape? c with
      | some meant => .ok (meant, rest)
      | none => .error (.behind .invalidEscape (c :: rest))

/-- Passes over an escape after its backslash, without joining surrogates. -/
def skipEscape (cs : List Char) : Except Stop (List Char) :=
  match cs with
  | [] => .error (.before .endInString [])
  | c :: rest =>
    if c = 'u' then (readHex rest).map Prod.snd
    else
      match shortEscape? c with
      | some _ => .ok rest
      | none => .error (.behind .invalidEscape (c :: rest))

theorem length_of_readHex {cs rest : List Char} {n : Nat} (h : readHex cs = .ok (n, rest)) :
    rest.length < cs.length := by
  unfold readHex at h
  split at h
  · simp at h
  · split at h
    · split at h
      · simp only [Except.ok.injEq, Prod.mk.injEq] at h
        rw [← h.2]
        simp only [List.length_cons]
        omega
      · simp at h
    · simp at h

theorem length_of_expectInPair {c : Char} {cs rest : List Char}
    (h : expectInPair c cs = .ok rest) : rest.length < cs.length := by
  cases cs with
  | nil => simp [expectInPair] at h
  | cons d cs =>
    simp only [expectInPair] at h
    split at h
    · simp only [Except.ok.injEq] at h
      simp [h]
    · simp at h

theorem length_of_readLowSurrogate {high : Nat} {cs rest : List Char} {c : Char}
    (h : readLowSurrogate high cs = .ok (c, rest)) : rest.length < cs.length := by
  unfold readLowSurrogate at h
  split at h
  · simp at h
  · rename_i hback
    split at h
    · simp at h
    · rename_i hletter
      split at h
      · simp at h
      · rename_i hhex
        split at h
        · simp only [Except.ok.injEq, Prod.mk.injEq] at h
          have h₁ := length_of_expectInPair hback
          have h₂ := length_of_expectInPair hletter
          have h₃ := length_of_readHex hhex
          rw [← h.2]
          omega
        · simp at h

theorem length_of_readEscape {cs rest : List Char} {c : Char} (h : readEscape cs = .ok (c, rest)) :
    rest.length < cs.length := by
  unfold readEscape at h
  split at h
  · simp at h
  · split at h
    · split at h
      · simp at h
      · rename_i hhex
        have h₁ := length_of_readHex hhex
        split at h
        · simp at h
        · split at h
          · have h₂ := length_of_readLowSurrogate h
            simp only [List.length_cons]
            omega
          · simp only [Except.ok.injEq, Prod.mk.injEq] at h
            rw [← h.2]
            simp only [List.length_cons]
            omega
    · split at h
      · simp only [Except.ok.injEq, Prod.mk.injEq] at h
        simp [← h.2]
      · simp at h

theorem length_of_skipEscape {cs rest : List Char} (h : skipEscape cs = .ok rest) :
    rest.length < cs.length := by
  unfold skipEscape at h
  split at h
  · simp at h
  · rename_i c tail
    split at h
    · cases hhex : readHex tail with
      | error stop => simp [hhex, Except.map] at h
      | ok found =>
        have h₁ := @length_of_readHex tail found.2 found.1 hhex
        simp only [hhex, Except.map, Except.ok.injEq] at h
        rw [← h]
        simp only [List.length_cons]
        omega
    · split at h
      · simp only [Except.ok.injEq] at h
        simp [h]
      · simp at h

/-- Puts a character in front of the text that was read. -/
def Reading.cons (c : Char) : Reading (List Char) → Reading (List Char)
  | .ok (text, rest) => .ok (c :: text, rest)
  | .error stop => .error stop

theorem eq_ok_of_cons_eq_ok {c : Char} {reading : Reading (List Char)} {text rest : List Char}
    (h : Reading.cons c reading = .ok (text, rest)) : ∃ tail, reading = .ok (tail, rest) := by
  cases reading with
  | error stop => simp [Reading.cons] at h
  | ok found =>
    simp only [Reading.cons, Except.ok.injEq, Prod.mk.injEq] at h
    exact ⟨found.1, by rw [← h.2]⟩

/-- A string after its opening quote. -/
def readText (cs : List Char) : Reading (List Char) :=
  match cs with
  | [] => .error (.before .endInString [])
  | c :: rest =>
    if c = '"' then .ok ([], rest)
    else if c = '\\' then
      match _h : readEscape rest with
      | .error stop => .error stop
      | .ok (meant, rest) => Reading.cons meant (readText rest)
    else if c.toNat < 0x20 then .error (.behind .controlCharacter (c :: rest))
    else Reading.cons c (readText rest)
termination_by cs.length
decreasing_by
  · have := length_of_readEscape _h
    simp only [List.length_cons]
    omega
  · simp

/-- Passes over a string after its opening quote. A control character is reported in front. -/
def skipText (cs : List Char) : Except Stop (List Char) :=
  match cs with
  | [] => .error (.before .endInString [])
  | c :: rest =>
    if c = '"' then .ok rest
    else if c = '\\' then
      match _h : skipEscape rest with
      | .error stop => .error stop
      | .ok rest => skipText rest
    else if c.toNat < 0x20 then .error (.before .controlCharacter (c :: rest))
    else skipText rest
termination_by cs.length
decreasing_by
  · have := length_of_skipEscape _h
    simp only [List.length_cons]
    omega
  · simp

theorem length_of_readText {cs text rest : List Char} (h : readText cs = .ok (text, rest)) :
    rest.length < cs.length := by
  fun_induction readText cs generalizing text
  all_goals grind [→ eq_ok_of_cons_eq_ok, → length_of_readEscape]

theorem length_of_skipText {cs rest : List Char} (h : skipText cs = .ok rest) :
    rest.length < cs.length := by
  fun_induction skipText cs
  all_goals grind [→ length_of_skipEscape]

/-! ### Whole values -/

/-- A bracket that is still open. -/
inductive Bracket where
  | list
  | object
  deriving DecidableEq, Repr

/-- What the text has to go on with: a value, a member of the innermost open object, or whatever
may follow a value. -/
inductive Awaiting where
  | value
  | entry
  | follower
  deriving DecidableEq, Repr

/-- Passes over a value that has no parts. -/
def skipScalar (cs : List Char) : Except Stop (List Char) :=
  match cs with
  | [] => .error (.behind .endInValue [])
  | c :: rest =>
    if c = 'n' then skipWord ['u', 'l', 'l'] rest
    else if c = 't' then skipWord ['r', 'u', 'e'] rest
    else if c = 'f' then skipWord ['a', 'l', 's', 'e'] rest
    else if c = '"' then skipText rest
    else if c = '-' then (readNumeral .invalidNumber true rest).map Prod.snd
    else if isDigit c then (readNumeral .invalidNumber false (c :: rest)).map Prod.snd
    else .error (.behind .expectedValue (c :: rest))

theorem eq_ok_of_map_snd_eq_ok {α : Type} {reading : Reading α} {rest : List Char}
    (h : reading.map Prod.snd = .ok rest) : ∃ a, reading = .ok (a, rest) := by
  cases reading with
  | error stop => simp [Except.map] at h
  | ok found =>
    simp only [Except.map, Except.ok.injEq] at h
    exact ⟨found.1, by rw [← h]⟩

theorem length_of_skipScalar {cs rest : List Char} (h : skipScalar cs = .ok rest) :
    rest.length < cs.length := by
  unfold skipScalar at h
  split at h
  · simp at h
  · simp only [List.length_cons]
    split at h
    · exact Nat.lt_succ_of_le (length_of_skipWord h)
    · split at h
      · exact Nat.lt_succ_of_le (length_of_skipWord h)
      · split at h
        · exact Nat.lt_succ_of_le (length_of_skipWord h)
        · split at h
          · exact Nat.lt_succ_of_lt (length_of_skipText h)
          · split at h
            · obtain ⟨n, hn⟩ := eq_ok_of_map_snd_eq_ok h
              exact Nat.lt_succ_of_lt (length_of_readNumeral hn)
            · split at h
              · obtain ⟨n, hn⟩ := eq_ok_of_map_snd_eq_ok h
                simpa using length_of_readNumeral hn
              · simp at h

/-- Passes over the key of a member and the colon behind it. -/
def skipKey (cs : List Char) : Except Stop (List Char) :=
  match skipBlanks cs with
  | [] => .error (.behind .endInObject [])
  | c :: rest =>
    if c = '"' then
      match skipText rest with
      | .error stop => .error stop
      | .ok rest =>
        match skipBlanks rest with
        | [] => .error (.behind .endInObject [])
        | c :: rest => if c = ':' then .ok rest else .error (.behind .expectedColon (c :: rest))
    else .error (.behind .keyNotText (c :: rest))

theorem length_of_skipBlanks_cons {c : Char} {cs rest : List Char}
    (h : skipBlanks cs = c :: rest) : rest.length < cs.length := by
  have := length_skipBlanks_le cs
  rw [h] at this
  exact this

theorem length_of_skipKey {cs rest : List Char} (h : skipKey cs = .ok rest) :
    rest.length < cs.length := by
  unfold skipKey at h
  split at h
  · simp at h
  · rename_i hopen
    have h₁ := length_of_skipBlanks_cons hopen
    split at h
    · split at h
      · simp at h
      · rename_i htext
        have h₂ := length_of_skipText htext
        split at h
        · simp at h
        · rename_i hcolon
          have h₃ := length_of_skipBlanks_cons hcolon
          split at h
          · simp only [Except.ok.injEq] at h
            rw [← h]
            omega
          · simp at h
    · simp at h

/-- Passes over what is awaited, and on until every open bracket is closed. -/
def skip (awaiting : Awaiting) (opened : List Bracket) (cs : List Char) :
    Except Stop (List Char) :=
  match awaiting, opened with
  | .value, opened =>
    match _h : skipBlanks cs with
    | '[' :: rest =>
      match _h' : skipBlanks rest with
      | [] => .error (.behind .endInList [])
      | c :: rest =>
        if c = ']' then skip .follower opened rest else skip .value (.list :: opened) (c :: rest)
    | '{' :: rest =>
      match _h' : skipBlanks rest with
      | [] => .error (.behind .endInObject [])
      | c :: rest =>
        if c = '}' then skip .follower opened rest else skip .entry (.object :: opened) (c :: rest)
    | other =>
      match _h' : skipScalar other with
      | .error stop => .error stop
      | .ok rest => skip .follower opened rest
  | .entry, opened =>
    match _h : skipKey cs with
    | .error stop => .error stop
    | .ok rest => skip .value opened rest
  | .follower, [] => .ok cs
  | .follower, .list :: outer =>
    match _h : skipBlanks cs with
    | [] => .error (.behind .endInList [])
    | c :: rest =>
      if c = ',' then skip .value (.list :: outer) rest
      else if c = ']' then skip .follower outer rest
      else .error (.behind .expectedListEnd (c :: rest))
  | .follower, .object :: outer =>
    match _h : skipBlanks cs with
    | [] => .error (.behind .endInObject [])
    | c :: rest =>
      if c = ',' then skip .entry (.object :: outer) rest
      else if c = '}' then skip .follower outer rest
      else .error (.behind .expectedObjectEnd (c :: rest))
termination_by cs.length
decreasing_by
  · have h₁ := length_of_skipBlanks_cons _h
    have h₂ := length_of_skipBlanks_cons _h'
    omega
  · have h₁ := length_of_skipBlanks_cons _h
    have h₂ := length_of_skipBlanks_cons _h'
    simp only [List.length_cons]
    omega
  · have h₁ := length_of_skipBlanks_cons _h
    have h₂ := length_of_skipBlanks_cons _h'
    omega
  · have h₁ := length_of_skipBlanks_cons _h
    have h₂ := length_of_skipBlanks_cons _h'
    simp only [List.length_cons]
    omega
  · have h₁ := length_of_skipScalar _h'
    have h₂ := length_skipBlanks_le cs
    rw [_h] at h₂
    omega
  · exact length_of_skipKey _h
  all_goals exact length_of_skipBlanks_cons _h

theorem length_of_skip {awaiting : Awaiting} {opened : List Bracket} {cs rest : List Char}
    (h : skip awaiting opened cs = .ok rest) : rest.length ≤ cs.length := by
  fun_induction skip awaiting opened cs
  all_goals grind [→ length_of_skipBlanks_cons, → length_of_skipScalar, → length_of_skipKey,
    length_skipBlanks_le]

end EntryTrace.Json
