import EntryTrace.Config.Decode

/-!
# Faults lie in the text

A reader says of a fault only how many bytes were left when it stopped. No reader has more bytes left
than it was given, whether it succeeds or stops (`bytesLeft`), so the place of a fault, counted from
the front, is an index of the text and its line and column can be found there. A stop behind the first
byte of a character of several bytes is no exception.
-/

namespace EntryTrace

set_option autoImplicit false

/-! ### Bytes -/

namespace Text

attribute [grind =] byteLength_nil byteLength_cons

theorem length_bytes (cs : List Char) : (bytes cs).length = byteLength cs := by
  induction cs with
  | nil => rfl
  | cons c cs ih =>
    rw [bytes, List.flatMap_cons, List.length_append, String.length_utf8EncodeChar, byteLength_cons,
      ← ih]
    rfl

theorem bytes_toList (text : String) : bytes text.toList = text.toUTF8.data.toList := by
  have hencoded : text.toUTF8 = (bytes text.toList).toByteArray := String.utf8Encode_toList.symm
  rw [hencoded, List.data_toByteArray]

theorem byteLength_le_of_suffix {rest cs : List Char} (h : rest <:+ cs) :
    byteLength rest ≤ byteLength cs := by
  obtain ⟨before, rfl⟩ := h
  rw [byteLength_append]
  omega

/-- The position of whatever follows these bytes: its line counts the line feeds among them, its
column the bytes behind the last of these. -/
def Position.Follows (p : Position) (before : List UInt8) : Prop :=
  p.line = 1 + before.count 10 ∧
    ∃ earlier current, before = earlier ++ current ∧ (earlier = [] ∨ earlier.getLast? = some 10) ∧
      10 ∉ current ∧ p.column = current.length

theorem Position.ofIndex_follows (bytes : List UInt8) (index : Nat) :
    (ofIndex bytes index).Follows (bytes.take index) := by
  -- the bytes passed, from the last to the first
  have hsplit := List.takeWhile_append_dropWhile (p := (· != 10)) (l := (bytes.take index).reverse)
  refine ⟨rfl, ((bytes.take index).reverse.dropWhile (· != 10)).reverse,
    ((bytes.take index).reverse.takeWhile (· != 10)).reverse, ?_, ?_, ?_, ?_⟩
  · rw [← List.reverse_append, hsplit, List.reverse_reverse]
  · cases hearlier : (bytes.take index).reverse.dropWhile (· != 10) with
    | nil => exact .inl rfl
    | cons feed others =>
      have hfeed := List.head?_dropWhile_not (· != 10) (bytes.take index).reverse
      rw [hearlier] at hfeed
      refine .inr ?_
      rw [List.getLast?_reverse]
      simpa using hfeed
  · intro hmem
    have hcurrent := List.all_eq_true.mp (List.all_takeWhile (p := (· != 10))) 10
      (List.mem_reverse.mp hmem)
    exact absurd hcurrent (by decide)
  · rw [List.length_reverse]
    rfl

end Text

/-! ### Readers -/

namespace Json

open Text

/-- The bytes that are left behind what was read, or where the reader stopped. -/
def bytesLeft : Except Stop (List Char) → Nat
  | .ok rest => byteLength rest
  | .error stop => stop.left

/-- The bytes that are left behind the value that was read, or where the reader stopped. -/
def Reading.bytesLeft {α : Type} (reading : Reading α) : Nat := Json.bytesLeft (reading.map Prod.snd)

variable {α β : Type} {n : Nat} {cs rest : List Char}

theorem left_before (fault : Fault) (cs : List Char) : (Stop.before fault cs).left = byteLength cs :=
  rfl

theorem left_behind_le (fault : Fault) (cs : List Char) :
    (Stop.behind fault cs).left ≤ byteLength cs :=
  Nat.sub_le _ _

@[simp, grind =] theorem bytesLeft_ok (rest : List Char) : bytesLeft (.ok rest) = byteLength rest := rfl

@[simp, grind =] theorem bytesLeft_error (stop : Stop) : bytesLeft (.error stop) = stop.left := rfl

@[simp, grind =] theorem Reading.bytesLeft_ok (a : α) (rest : List Char) :
    Reading.bytesLeft (.ok (a, rest)) = byteLength rest := rfl

@[simp, grind =] theorem Reading.bytesLeft_error (stop : Stop) :
    Reading.bytesLeft (α := α) (.error stop) = stop.left := rfl

theorem byteLength_skipBlanks_le (cs : List Char) : byteLength (skipBlanks cs) ≤ byteLength cs :=
  byteLength_le_of_suffix (List.dropWhile_suffix isBlank)

theorem bytesLeft_skipWord_le (word cs : List Char) : bytesLeft (skipWord word cs) ≤ byteLength cs := by
  induction word generalizing cs with
  | nil => exact Nat.le_refl _
  | cons w word ih =>
    cases cs with
    | nil => exact Nat.le_refl 0
    | cons c cs =>
      have hrest := ih cs
      simp only [skipWord]
      split
      · rw [byteLength_cons]
        omega
      · exact left_behind_le _ _

/-- Every digit that is read is a byte that is no longer left. -/
theorem length_add_byteLength_readDigits_le (cs : List Char) :
    (readDigits cs).1.length + byteLength (readDigits cs).2 ≤ byteLength cs := by
  have hread := length_le_byteLength (cs.takeWhile isDigit)
  have hsplit := byteLength_append (cs.takeWhile isDigit) (cs.dropWhile isDigit)
  rw [List.takeWhile_append_dropWhile] at hsplit
  simp only [readDigits, List.length_map]
  omega

theorem outcome_cases {outcome : Except Stop (List Char)} (h : bytesLeft outcome ≤ n) :
    (∃ stop, outcome = .error stop ∧ stop.left ≤ n) ∨
      ∃ rest, outcome = .ok rest ∧ byteLength rest ≤ n := by
  cases outcome with
  | error stop => exact .inl ⟨stop, rfl, h⟩
  | ok rest => exact .inr ⟨rest, rfl, h⟩

theorem reading_cases {reading : Reading α} (h : reading.bytesLeft ≤ n) :
    (∃ stop, reading = .error stop ∧ stop.left ≤ n) ∨
      ∃ a rest, reading = .ok (a, rest) ∧ byteLength rest ≤ n := by
  cases reading with
  | error stop => exact .inl ⟨stop, rfl, h⟩
  | ok read => exact .inr ⟨read.1, read.2, rfl, h⟩

/-! ### Numbers -/

theorem bytesLeft_readWhole_le (atEnd : Fault) (cs : List Char) :
    (readWhole atEnd cs).bytesLeft ≤ byteLength cs := by
  cases cs with
  | nil => exact Nat.le_refl 0
  | cons c rest =>
    have hrest : byteLength rest ≤ byteLength (c :: rest) := by
      rw [byteLength_cons]
      omega
    simp only [readWhole]
    split
    · split
      · exact Nat.le_trans (left_behind_le _ rest) hrest
      · exact hrest
    · split
      · have hdigits := length_add_byteLength_readDigits_le (c :: rest)
        rw [Reading.bytesLeft_ok]
        omega
      · exact left_behind_le _ _

theorem bytesLeft_readFraction_le (atEnd : Fault) (cs : List Char) :
    (readFraction atEnd cs).bytesLeft ≤ byteLength cs := by
  unfold readFraction
  split
  · rename_i rest
    have hdigits := length_add_byteLength_readDigits_le rest
    have hcons := byteLength_cons '.' rest
    split
    · exact Nat.zero_le _
    · rename_i more _ hread
      have hbehind := left_behind_le .invalidNumber more
      simp only [hread] at hdigits
      rw [Reading.bytesLeft_error]
      omega
    · rename_i digits more _ _ hread
      simp only [hread] at hdigits
      rw [Reading.bytesLeft_ok]
      omega
  · exact Nat.le_refl _

/-- The digits of an exponent behind its first. -/
def laterDigits (exponent : Option Exponent) : Nat := (exponent.map fun e => e.rest.length).getD 0

theorem byteLength_unsigned_le (signed : Bool) (cs : List Char) :
    byteLength (if signed then cs.tail else cs) ≤ byteLength cs := by
  split
  · exact byteLength_le_of_suffix (List.tail_suffix cs)
  · exact Nat.le_refl _

/-- What reading an exponent leaves, with the digits of the exponent counted as if they were still
ahead. -/
theorem readExponent_cases (atEnd : Fault) (cs : List Char) :
    (∃ stop, readExponent atEnd cs = .error stop ∧ stop.left ≤ byteLength cs) ∨
      ∃ exponent rest, readExponent atEnd cs = .ok (exponent, rest) ∧
        laterDigits exponent + byteLength rest ≤ byteLength cs := by
  cases cs with
  | nil => exact .inr ⟨none, [], rfl, Nat.le_refl 0⟩
  | cons c rest =>
    simp only [readExponent]
    split
    · have hdigits := byteLength_unsigned_le
        (rest.head? == some '-' || rest.head? == some '+') rest
      have hcons := byteLength_cons c rest
      split
      · exact .inl ⟨_, rfl, Nat.zero_le _⟩
      · rename_i d more hmore
        rw [hmore, byteLength_cons] at hdigits
        split
        · have hread := length_add_byteLength_readDigits_le more
          refine .inr ⟨_, _, rfl, ?_⟩
          simp only [laterDigits, Option.map_some, Option.getD_some]
          omega
        · have hbehind := left_behind_le .invalidNumber (d :: more)
          rw [byteLength_cons] at hbehind
          exact .inl ⟨_, rfl, by omega⟩
    · exact .inr ⟨none, c :: rest, rfl, by simp [laterDigits]⟩

/-- The same for a whole number. -/
theorem readNumeral_cases (atEnd : Fault) (negative : Bool) (cs : List Char) :
    (∃ stop, readNumeral atEnd negative cs = .error stop ∧ stop.left ≤ byteLength cs) ∨
      ∃ numeral rest, readNumeral atEnd negative cs = .ok (numeral, rest) ∧
        laterDigits numeral.exponent + byteLength rest ≤ byteLength cs := by
  unfold readNumeral
  obtain ⟨stop, hwhole, hleft⟩ | ⟨whole, afterWhole, hwhole, hleft⟩ :=
    reading_cases (bytesLeft_readWhole_le atEnd cs)
  · rw [hwhole]
    exact .inl ⟨stop, rfl, hleft⟩
  rw [hwhole]
  obtain ⟨stop, hfraction, hleft'⟩ | ⟨fraction, afterFraction, hfraction, hleft'⟩ :=
    reading_cases (bytesLeft_readFraction_le atEnd afterWhole)
  · simp only [hfraction]
    exact .inl ⟨stop, rfl, Nat.le_trans hleft' hleft⟩
  simp only [hfraction]
  obtain ⟨stop, hexponent, hleft''⟩ | ⟨exponent, rest, hexponent, hleft''⟩ :=
    readExponent_cases atEnd afterFraction
  · simp only [hexponent]
    exact .inl ⟨stop, rfl, by omega⟩
  · simp only [hexponent]
    exact .inr ⟨⟨negative, whole, fraction, exponent⟩, rest, rfl, by dsimp only; omega⟩

theorem bytesLeft_readNumeral_le (atEnd : Fault) (negative : Bool) (cs : List Char) :
    (readNumeral atEnd negative cs).bytesLeft ≤ byteLength cs := by
  obtain ⟨stop, hread, hleft⟩ | ⟨numeral, rest, hread, hleft⟩ := readNumeral_cases atEnd negative cs
  · rw [hread]
    exact hleft
  · rw [hread, Reading.bytesLeft_ok]
    omega

theorem length_le_of_overrun {magnitude : Nat} {digits unread : List Digit}
    (h : Exponent.overrun magnitude digits = some unread) : unread.length ≤ digits.length := by
  induction digits generalizing magnitude with
  | nil => simp [Exponent.overrun] at h
  | cons d digits ih =>
    simp only [Exponent.overrun] at h
    rw [List.length_cons]
    split at h
    · exact Nat.le_succ_of_le (ih h)
    · obtain rfl := Option.some.inj h
      omega

/-- A number is found too large at the latest behind its last digit, at the earliest among the digits
of its exponent. -/
theorem unread_le_laterDigits {numeral : Numeral} {range : OutOfRange}
    (h : numeral.number = .error range) : range.unread ≤ laterDigits numeral.exponent := by
  have hdouble : numeral.double = .error range := by
    unfold Numeral.number at h
    split at h
    · cases h
    · split at h
      · cases h
      · cases hvalue : numeral.double with
        | ok value => simp [hvalue, Except.map] at h
        | error other =>
          simp only [hvalue, Except.map, Except.error.injEq] at h
          rw [h]
  have hfinish : ∀ significand exponent,
      Numeral.double.finish numeral significand exponent = .error range → range.unread = 0 := by
    intro significand exponent hrange
    unfold Numeral.double.finish at hrange
    split at hrange
    · cases hrange
    · obtain rfl := Except.error.inj hrange
      rfl
  rcases hparts : numeral.parts with ⟨significand, place⟩
  simp only [Numeral.double, hparts] at hdouble
  cases hexponent : numeral.exponent with
  | none =>
    simp only [hexponent] at hdouble
    rw [hfinish _ _ hdouble]
    exact Nat.zero_le _
  | some e =>
    simp only [hexponent] at hdouble
    split at hdouble
    · rw [hfinish _ _ hdouble]
      exact Nat.zero_le _
    · rename_i unread hoverrun
      split at hdouble
      · cases hdouble
      · obtain rfl := Except.error.inj hdouble
        exact length_le_of_overrun hoverrun

/-! ### Strings -/

theorem bytesLeft_readHex_le (cs : List Char) : (readHex cs).bytesLeft ≤ byteLength cs := by
  unfold readHex
  split
  · exact Nat.zero_le _
  · split
    · rename_i a b c d rest _
      split
      · simp only [Reading.bytesLeft_ok, byteLength_cons]
        omega
      · exact Nat.sub_le _ _
    · exact Nat.sub_le _ _

theorem bytesLeft_expectInPair_le (wanted : Char) (cs : List Char) :
    bytesLeft (expectInPair wanted cs) ≤ byteLength cs := by
  cases cs with
  | nil => exact Nat.le_refl 0
  | cons c rest =>
    simp only [expectInPair]
    split
    · rw [bytesLeft_ok, byteLength_cons]
      omega
    · exact left_behind_le _ _

theorem bytesLeft_readLowSurrogate_le (high : Nat) (cs : List Char) :
    (readLowSurrogate high cs).bytesLeft ≤ byteLength cs := by
  unfold readLowSurrogate
  obtain ⟨stop, hback, hleft⟩ | ⟨afterBack, hback, hleft⟩ :=
    outcome_cases (bytesLeft_expectInPair_le '\\' cs)
  · rw [hback]
    exact hleft
  rw [hback]
  obtain ⟨stop, hletter, hleft'⟩ | ⟨afterLetter, hletter, hleft'⟩ :=
    outcome_cases (bytesLeft_expectInPair_le 'u' afterBack)
  · simp only [hletter, Reading.bytesLeft_error]
    omega
  simp only [hletter]
  obtain ⟨stop, hhex, hleft''⟩ | ⟨low, rest, hhex, hleft''⟩ :=
    reading_cases (bytesLeft_readHex_le afterLetter)
  · simp only [hhex, Reading.bytesLeft_error]
    omega
  simp only [hhex]
  split
  · rw [Reading.bytesLeft_ok]
    omega
  · rw [Reading.bytesLeft_error, left_before]
    omega

theorem bytesLeft_readEscape_le (cs : List Char) : (readEscape cs).bytesLeft ≤ byteLength cs := by
  cases cs with
  | nil => exact Nat.le_refl 0
  | cons c rest =>
    have hcons := byteLength_cons c rest
    simp only [readEscape]
    split
    · obtain ⟨stop, hhex, hleft⟩ | ⟨unit, afterHex, hhex, hleft⟩ :=
        reading_cases (bytesLeft_readHex_le rest)
      · simp only [hhex, Reading.bytesLeft_error]
        omega
      simp only [hhex]
      split
      · rw [Reading.bytesLeft_error, left_before]
        omega
      · split
        · have hlow := bytesLeft_readLowSurrogate_le unit afterHex
          omega
        · rw [Reading.bytesLeft_ok]
          omega
    · split
      · rw [Reading.bytesLeft_ok]
        omega
      · exact left_behind_le _ _

theorem bytesLeft_skipEscape_le (cs : List Char) : bytesLeft (skipEscape cs) ≤ byteLength cs := by
  cases cs with
  | nil => exact Nat.le_refl 0
  | cons c rest =>
    have hcons := byteLength_cons c rest
    simp only [skipEscape]
    split
    · have hhex := bytesLeft_readHex_le rest
      exact Nat.le_trans hhex (by omega)
    · split
      · rw [bytesLeft_ok]
        omega
      · exact left_behind_le _ _

theorem bytesLeft_cons (c : Char) (reading : Reading (List Char)) :
    (Reading.cons c reading).bytesLeft = reading.bytesLeft := by
  rcases reading with stop | ⟨text, rest⟩ <;> rfl

theorem bytesLeft_readText_le (cs : List Char) : (readText cs).bytesLeft ≤ byteLength cs := by
  fun_induction readText cs with
  | case1 => exact Nat.le_refl 0
  | case2 rest =>
    rw [Reading.bytesLeft_ok, byteLength_cons]
    omega
  | case3 rest stop hescape _ =>
    have hleft := bytesLeft_readEscape_le rest
    rw [hescape] at hleft
    rw [byteLength_cons]
    exact Nat.le_trans hleft (Nat.le_add_left _ _)
  | case4 rest meant afterEscape hescape _ ih =>
    have hleft := bytesLeft_readEscape_le rest
    rw [hescape, Reading.bytesLeft_ok] at hleft
    rw [bytesLeft_cons, byteLength_cons]
    omega
  | case5 c rest => exact left_behind_le _ _
  | case6 c rest _ _ _ ih =>
    rw [bytesLeft_cons, byteLength_cons]
    omega

theorem bytesLeft_skipText_le (cs : List Char) : bytesLeft (skipText cs) ≤ byteLength cs := by
  fun_induction skipText cs with
  | case1 => exact Nat.le_refl 0
  | case2 rest =>
    rw [bytesLeft_ok, byteLength_cons]
    omega
  | case3 rest stop hescape _ =>
    have hleft := bytesLeft_skipEscape_le rest
    rw [hescape] at hleft
    rw [byteLength_cons]
    exact Nat.le_trans hleft (Nat.le_add_left _ _)
  | case4 rest afterEscape hescape _ ih =>
    have hleft := bytesLeft_skipEscape_le rest
    rw [hescape, bytesLeft_ok] at hleft
    rw [byteLength_cons]
    omega
  | case5 c rest => exact Nat.le_refl _
  | case6 c rest _ _ _ ih =>
    rw [byteLength_cons]
    omega

/-! ### Whole values -/

theorem bytesLeft_skipScalar_le (cs : List Char) : bytesLeft (skipScalar cs) ≤ byteLength cs := by
  cases cs with
  | nil => exact Nat.zero_le _
  | cons c rest =>
    have hword (word : List Char) : bytesLeft (skipWord word rest) ≤ byteLength (c :: rest) :=
      Nat.le_trans (bytesLeft_skipWord_le word rest) (Nat.le_add_left _ _)
    simp only [skipScalar]
    split
    · exact hword _
    split
    · exact hword _
    split
    · exact hword _
    split
    · exact Nat.le_trans (bytesLeft_skipText_le rest) (Nat.le_add_left _ _)
    split
    · exact Nat.le_trans (bytesLeft_readNumeral_le _ _ rest) (Nat.le_add_left _ _)
    split
    · exact bytesLeft_readNumeral_le _ _ (c :: rest)
    · exact left_behind_le _ _

theorem byteLength_of_skipBlanks {c : Char} (h : skipBlanks cs = c :: rest) :
    byteLength (c :: rest) ≤ byteLength cs := by
  rw [← h]
  exact byteLength_skipBlanks_le cs

theorem bytesLeft_skipKey_le (cs : List Char) : bytesLeft (skipKey cs) ≤ byteLength cs := by
  unfold skipKey
  split
  · exact Nat.zero_le _
  · rename_i c rest hopen
    have hrest := byteLength_of_skipBlanks hopen
    split
    · obtain ⟨stop, htext, hleft⟩ | ⟨afterText, htext, hleft⟩ :=
        outcome_cases (bytesLeft_skipText_le rest)
      · simp only [htext, bytesLeft_error]
        rw [byteLength_cons] at hrest
        omega
      simp only [htext]
      split
      · exact Nat.zero_le _
      · rename_i d afterColon hcolon
        have hcolon' := byteLength_of_skipBlanks hcolon
        have hbehind := left_behind_le .expectedColon (d :: afterColon)
        simp only [byteLength_cons] at hrest hcolon' hbehind
        split
        · rw [bytesLeft_ok]
          omega
        · rw [bytesLeft_error]
          omega
    · exact Nat.le_trans (left_behind_le _ _) hrest

theorem bytesLeft_skip_le (awaiting : Awaiting) (opened : List Bracket) (cs : List Char) :
    bytesLeft (skip awaiting opened cs) ≤ byteLength cs := by
  fun_induction skip awaiting opened cs
  all_goals grind [→ byteLength_of_skipBlanks, byteLength_skipBlanks_le, ! left_behind_le,
    ! bytesLeft_skipScalar_le, ! bytesLeft_skipKey_le]

end Json

/-! ### Configurations -/

namespace Config

open Json Text

theorem left_numberMismatch_le (expected : String) (negative : Bool) (cs : List Char) :
    (numberMismatch expected negative cs).left ≤ byteLength cs := by
  unfold numberMismatch
  obtain ⟨stop, hread, hleft⟩ | ⟨numeral, rest, hread, hleft⟩ :=
    readNumeral_cases .endInValue negative cs
  · rw [hread]
    exact hleft
  simp only [hread]
  split
  · rw [left_before]
    omega
  · rename_i range hrange
    have hunread := unread_le_laterDigits hrange
    dsimp only
    omega

theorem left_wordMismatch_le (expected : String) (word : List Char) (found : Found) (cs : List Char) :
    (wordMismatch expected word found cs).left ≤ byteLength cs := by
  unfold wordMismatch
  obtain ⟨stop, hword, hleft⟩ | ⟨rest, hword, hleft⟩ := outcome_cases (bytesLeft_skipWord_le word cs)
  · rw [hword]
    exact hleft
  · simp only [hword]
    exact hleft

theorem left_mismatch_le (expected : String) (cs : List Char) :
    (mismatch expected cs).left ≤ byteLength cs := by
  cases cs with
  | nil => exact Nat.zero_le _
  | cons c rest =>
    have hcons := byteLength_cons c rest
    have hword (word : List Char) (found : Found) := left_wordMismatch_le expected word found rest
    have hnegative := left_numberMismatch_le expected true rest
    simp only [mismatch]
    split
    · exact Nat.le_trans (hword _ _) (by omega)
    split
    · exact Nat.le_trans (hword _ _) (by omega)
    split
    · exact Nat.le_trans (hword _ _) (by omega)
    split
    · omega
    split
    · exact left_numberMismatch_le expected false (c :: rest)
    split
    · obtain ⟨stop, htext, hleft⟩ | ⟨text, afterText, htext, hleft⟩ :=
        reading_cases (bytesLeft_readText_le rest)
      · simp only [htext]
        omega
      · simp only [htext, left_before]
        omega
    split
    · exact Nat.le_refl _
    split
    · exact Nat.le_refl _
    · exact left_behind_le _ _

theorem bytesLeft_readSwitch_le (cs : List Char) : (readSwitch cs).bytesLeft ≤ byteLength cs := by
  unfold readSwitch
  split
  · exact Nat.zero_le _
  · rename_i c rest hopen
    have hrest := byteLength_of_skipBlanks hopen
    have hword (word : List Char) (switch : Bool) :
        Reading.bytesLeft ((skipWord word rest).map fun rest => (switch, rest)) ≤ byteLength cs := by
      rw [byteLength_cons] at hrest
      obtain ⟨stop, hskip, hleft⟩ | ⟨after, hskip, hleft⟩ :=
        outcome_cases (bytesLeft_skipWord_le word rest)
      · rw [hskip]
        exact Nat.le_trans hleft (by omega)
      · rw [hskip]
        exact Nat.le_trans hleft (by omega)
    split
    · exact hword _ _
    split
    · exact hword _ _
    · exact Nat.le_trans (left_mismatch_le expectedSwitch (c :: rest)) hrest

theorem bytesLeft_readListEnd_le (cs : List Char) : bytesLeft (readListEnd cs) ≤ byteLength cs := by
  unfold readListEnd
  grind [→ byteLength_of_skipBlanks, ! left_behind_le]

theorem bytesLeft_readArray_le (cs : List Char) : (readArray cs).bytesLeft ≤ byteLength cs := by
  unfold readArray
  split
  · exact Nat.zero_le _
  · rename_i c rest hopen
    have hrest := byteLength_of_skipBlanks hopen
    split
    · rw [byteLength_cons] at hrest
      rw [Reading.bytesLeft_ok]
      omega
    obtain ⟨stop, hswitch, hleft⟩ | ⟨switch, afterSwitch, hswitch, hleft⟩ :=
      reading_cases (bytesLeft_readSwitch_le (c :: rest))
    · simp only [hswitch, Reading.bytesLeft_error]
      omega
    simp only [hswitch]
    obtain ⟨stop, hend, hleft'⟩ | ⟨afterEnd, hend, hleft'⟩ :=
      outcome_cases (bytesLeft_readListEnd_le afterSwitch)
    · rw [hend]
      exact Nat.le_trans hleft' (Nat.le_trans hleft hrest)
    · rw [hend]
      exact Nat.le_trans hleft' (Nat.le_trans hleft hrest)

theorem bytesLeft_readKeyStart_le (isFirst : Bool) (cs : List Char) :
    bytesLeft (readKeyStart isFirst cs) ≤ byteLength cs := by
  unfold readKeyStart
  grind [→ byteLength_of_skipBlanks, ! left_behind_le]

theorem left_repeated_le (cs : List Char) : (repeated cs).left ≤ byteLength cs := by
  have hblanks := byteLength_skipBlanks_le cs
  unfold repeated
  split
  · rename_i rest hclose
    rw [hclose, byteLength_cons] at hblanks
    rw [left_before]
    omega
  · exact hblanks

theorem bytesLeft_readColon_le (cs : List Char) : bytesLeft (readColon cs) ≤ byteLength cs := by
  unfold readColon
  grind [→ byteLength_of_skipBlanks, ! left_behind_le]

theorem bytesLeft_readMembers_le (isFirst : Bool) (switch : Option Bool) (cs : List Char) :
    (readMembers isFirst switch cs).bytesLeft ≤ byteLength cs := by
  fun_induction readMembers isFirst switch cs
  all_goals grind [→ byteLength_of_skipBlanks, ! bytesLeft_readKeyStart_le, ! bytesLeft_readText_le,
    ! bytesLeft_readColon_le, ! bytesLeft_readSwitch_le, ! bytesLeft_skip_le, ! left_repeated_le,
    ! left_behind_le]

theorem bytesLeft_readConfig_le (cs : List Char) : (readConfig cs).bytesLeft ≤ byteLength cs := by
  unfold readConfig
  split
  · exact Nat.zero_le _
  · rename_i c rest hopen
    have hrest := byteLength_of_skipBlanks hopen
    have htail : byteLength rest ≤ byteLength cs := by
      rw [byteLength_cons] at hrest
      omega
    split
    · exact Nat.le_trans (bytesLeft_readArray_le rest) htail
    split
    · exact Nat.le_trans (bytesLeft_readMembers_le true none rest) htail
    · exact Nat.le_trans (left_mismatch_le expectedConfig (c :: rest)) hrest

/-- Reading a configuration stops within its text. -/
theorem left_le_of_read {cs : List Char} {stop : Stop} (h : read cs = .error stop) :
    stop.left ≤ byteLength cs := by
  unfold read at h
  obtain ⟨other, hconfig, hleft⟩ | ⟨config, rest, hconfig, hleft⟩ :=
    reading_cases (bytesLeft_readConfig_le cs)
  · simp only [hconfig, Except.error.injEq] at h
    rw [← h]
    exact hleft
  simp only [hconfig] at h
  split at h
  · cases h
  · rename_i c tail hblanks
    obtain rfl := Except.error.inj h
    have hbehind := left_behind_le .trailingCharacters (c :: tail)
    have hrest := byteLength_of_skipBlanks hblanks
    omega

theorem eq_problemAt_of_ofText {text : String} {problem : Problem} (h : ofText text = .error problem) :
    ∃ stop, read text.toList = .error stop ∧ problem = problemAt text.toList stop := by
  unfold ofText at h
  split at h
  · cases h
  · rename_i stop hread
    exact ⟨stop, hread, (Except.error.inj h).symm⟩

/-- A text that is refused is cut in two where reading stopped: the bytes that were left are the
second part, and the position of the cut is the place of the problem and the end of its message. A
value has no places. -/
theorem problem_place :
    (∀ (text : String) (problem : Problem), ofText text = .error problem →
      ∃ (stop : Stop) (before after : List UInt8) (line column : Nat),
        read text.toList = .error stop ∧
        text.toUTF8.data.toList = before ++ after ∧ after.length = stop.left ∧
        (Position.mk line column).Follows before ∧
        problem.kind = .invalidConfig ∧
        problem.place = some ⟨none, some line, some column⟩ ∧
        problem.message = "invalid pass configuration: " ++ stop.fault.message ++
          " at line " ++ toString line ++ " column " ++ toString column) ∧
    ∀ (value : Json) (problem : Problem), ofValue value = .error problem →
      problem.kind = .invalidConfig ∧ problem.place = none := by
  constructor
  · intro text problem h
    obtain ⟨stop, hread, rfl⟩ := eq_problemAt_of_ofText h
    have hleft := left_le_of_read hread
    rw [← length_bytes] at hleft
    let index := (bytes text.toList).length - stop.left
    let position := Position.ofIndex (bytes text.toList) index
    refine ⟨stop, (bytes text.toList).take index, (bytes text.toList).drop index, position.line,
      position.column, hread, ?_, ?_, Position.ofIndex_follows _ _, rfl, rfl, ?_⟩
    · rw [← bytes_toList, List.take_append_drop]
    · -- the subtraction that gives the index loses nothing
      rw [List.length_drop]
      omega
    · simp only [Problem.message, Problem.atPlace, problemAt, String.append_assoc]
      rfl
  · intro value problem h
    unfold ofValue at h
    split at h
    · cases h
    · obtain rfl := Except.error.inj h
      exact ⟨rfl, rfl⟩

/-- The letter takes two bytes; the fault is reported between them. A value that is refused
has no place. -/
theorem problem_place_splitLetter :
    (∃ (problem : Problem) (before after : List UInt8),
      ofText "[\n\té" = .error problem ∧ "[\n\té".toUTF8.data.toList = before ++ after ∧
        after.length = 1 ∧ (Position.mk 2 2).Follows before ∧
        problem.place = some ⟨none, some 2, some 2⟩ ∧
        problem.message = "invalid pass configuration: expected value at line 2 column 2") ∧
    ∃ problem : Problem, ofValue (.array [.null]) = .error problem ∧
      problem.kind = .invalidConfig ∧ problem.place = none := by
  constructor
  · have hread : read "[\n\té".toList = .error (.behind .expectedValue ['é']) := rfl
    have h : ofText "[\n\té" =
        .error (problemAt "[\n\té".toList (.behind .expectedValue ['é'])) := rfl
    obtain ⟨stop, before, after, line, column, hstop, hbytes, hafter, hfollows, -, hplace,
      hmessage⟩ := problem_place.1 _ _ h
    obtain rfl := Except.error.inj (hstop.symm.trans hread)
    obtain ⟨-, hline, hcolumn⟩ := Place.mk.inj (Option.some.inj hplace)
    obtain rfl : 2 = line := Option.some.inj hline
    obtain rfl : 2 = column := Option.some.inj hcolumn
    exact ⟨_, before, after, h, hbytes, hafter, hfollows, hplace, hmessage⟩
  · exact ⟨_, rfl, problem_place.2 (.array [.null]) _ rfl⟩

end Config

end EntryTrace
