import EntryTrace.Config.Decode
import EntryTrace.Proofs.CompactText

/-!
# Both decoders of the configuration agree

A configuration is decoded from a value by walking its members, and from text by scanning it, where
members other than the switch are passed over unread. One member changes the switch in the same way
for both (`nextSwitch`), so by induction on the members both decode every value to the same
configuration, or both refuse it.
-/

namespace EntryTrace

set_option autoImplicit false

namespace Config

open Json

variable {rest : List Char}

/-! ### One switch -/

theorem skipBlanks_compact (value : Json) (rest : List Char) :
    skipBlanks (value.compact ++ rest) = value.compact ++ rest := by
  obtain ⟨⟨c, cs, htext, hblank, _⟩, _⟩ := passes_compact value
  rw [htext]
  exact skipBlanks_cons hblank _

/-- The first character of a text tells booleans, arrays and objects from other values. -/
theorem exists_compact (value : Json) :
    ∃ c cs, value.compact = c :: cs ∧
      (c = 't' ∨ c = 'f' → ∃ switch, value = .bool switch) ∧
      (c = '[' → ∃ elements, value = .array elements) ∧
      (c = '{' → ∃ members, value = .object members) := by
  cases value with
  | null => exact ⟨'n', _, rfl, by simp⟩
  | bool switch => cases switch <;> exact ⟨_, _, rfl, by simp⟩
  | number n =>
    obtain ⟨c, cs, htext, hdigit⟩ := exists_unsignedText n
    have hmark := not_mem_marks hdigit
    simp only [marks, List.mem_cons, List.not_mem_nil, or_false, not_or] at hmark
    cases hsign : n.negative
    · exact ⟨c, cs, by simp [compact, Numeral.text, hsign, htext], by simp [hmark]⟩
    · exact ⟨'-', n.unsignedText, by simp [compact, Numeral.text, hsign], by simp⟩
  | string text => exact ⟨'"', _, rfl, by simp⟩
  | array elements => exact ⟨'[', _, rfl, by simp⟩
  | object members => exact ⟨'{', _, rfl, by simp⟩

/-- A boolean is the switch for both decoders, and both refuse every other value. -/
theorem readSwitch_compact (value : Json) (rest : List Char) :
    (∃ switch, switchOf value = .ok switch ∧
      readSwitch (value.compact ++ rest) = .ok (switch, rest)) ∨
    ((∃ fault, switchOf value = .error fault) ∧
      ∃ stop, readSwitch (value.compact ++ rest) = .error stop) := by
  by_cases hbool : ∃ switch, value = .bool switch
  · obtain ⟨switch, rfl⟩ := hbool
    refine .inl ⟨switch, rfl, ?_⟩
    cases switch <;> simp [readSwitch, compact, skipBlanks_cons, isBlank, skipWord, Except.map]
  · refine .inr ⟨?_, ?_⟩
    · cases value with
      | bool switch => exact absurd ⟨switch, rfl⟩ hbool
      | _ => exact ⟨_, rfl⟩
    · have hopen := skipBlanks_compact value rest
      obtain ⟨c, cs, htext, hfirst, _⟩ := exists_compact value
      obtain ⟨htrue, hfalse⟩ := not_or.mp (mt hfirst hbool)
      rw [htext, List.cons_append] at hopen ⊢
      exact ⟨mismatch expectedSwitch (c :: (cs ++ rest)), by
        simp [readSwitch, hopen, htrue, hfalse]⟩

/-! ### Members -/

/-- The switch after one more member, unless the member is refused. -/
def nextSwitch (switch : Option Bool) (member : String × Json) : Option (Option Bool) :=
  if member.1 = switchName then
    if switch.isSome then none else (switchOf member.2).toOption.map some
  else some switch

theorem switchIn_cons (switch : Option Bool) (member : String × Json)
    (members : List (String × Json)) :
    (switchIn switch (member :: members)).toOption =
      (nextSwitch switch member).bind fun next => (switchIn next members).toOption := by
  obtain ⟨key, value⟩ := member
  rw [switchIn, nextSwitch]
  split
  · split
    · rfl
    · cases switchOf value <;> rfl
  · rfl

/-- What stands in front of a member. -/
def memberLead (isFirst : Bool) : List Char := if isFirst then [] else [',']

theorem readKeyStart_memberLead (isFirst : Bool) (cs : List Char) :
    ∃ c tail, skipBlanks (memberLead isFirst ++ '"' :: cs) = c :: tail ∧ c ≠ '}' ∧
      readKeyStart isFirst (c :: tail) = .ok cs := by
  cases isFirst
  · refine ⟨',', '"' :: cs, skipBlanks_cons (by decide) _, by decide, ?_⟩
    simp [readKeyStart, skipBlanks_cons, isBlank]
  · refine ⟨'"', cs, skipBlanks_cons (by decide) _, by decide, ?_⟩
    simp [readKeyStart]

theorem readMembers_closed (isFirst : Bool) (switch : Option Bool) (rest : List Char) :
    readMembers isFirst switch ('}' :: rest) = .ok (⟨switch.getD false⟩, rest) := by
  have hclose := skipBlanks_cons (by decide : isBlank '}' = false) rest
  rw [readMembers]
  grind

/-- What is read behind a key and its colon. -/
theorem readMembers_of_key {isFirst : Bool} {switch : Option Bool} {c : Char}
    {cs tail start key afterKey afterColon : List Char} (hopen : skipBlanks cs = c :: tail)
    (hclose : c ≠ '}') (hstart : readKeyStart isFirst (c :: tail) = .ok start)
    (htext : readText start = .ok (key, afterKey)) (hcolon : readColon afterKey = .ok afterColon) :
    readMembers isFirst switch cs =
      if key = switchName.toList then
        if switch.isSome then .error (repeated afterKey)
        else
          match readSwitch afterColon with
          | .error stop => .error stop
          | .ok (value, rest) => readMembers false (some value) rest
      else
        match skip .value [] afterColon with
        | .error stop => .error stop
        | .ok rest => readMembers false switch rest := by
  conv => lhs; rw [readMembers]
  grind

/-- A member read from its text changes the switch as the member itself does. -/
theorem readMembers_member (isFirst : Bool) (switch : Option Bool) (member : String × Json)
    (hrest : EndsNumber rest) :
    (readMembers isFirst switch (memberLead isFirst ++ (memberText member ++ rest))).toOption =
      (nextSwitch switch member).bind fun next => (readMembers false next rest).toOption := by
  obtain ⟨key, value⟩ := member
  have hmember : memberText (key, value) ++ rest =
      '"' :: (key.toList.flatMap escaped ++ '"' :: ':' :: (value.compact ++ rest)) := by
    simp [memberText, stringText]
  obtain ⟨c, tail, hopen, hclose, hstart⟩ := readKeyStart_memberLead isFirst
    (key.toList.flatMap escaped ++ '"' :: ':' :: (value.compact ++ rest))
  have htext := readText_flatMap key.toList (':' :: (value.compact ++ rest))
  have hcolon : readColon (':' :: (value.compact ++ rest)) = .ok (value.compact ++ rest) := by
    simp [readColon, skipBlanks_cons, isBlank]
  rw [hmember, readMembers_of_key hopen hclose hstart htext hcolon, nextSwitch]
  simp only [String.toList_inj]
  split
  · split
    · rfl
    · rcases readSwitch_compact value rest with
        ⟨found, hvalue, hread⟩ | ⟨⟨fault, hvalue⟩, stop, hread⟩
      · rw [hvalue, hread]
        rfl
      · rw [hvalue, hread]
        rfl
  · -- another member: no bracket is open, so its value is passed over and nothing else
    have hskip : skip .value [] (value.compact ++ rest) = .ok rest := by
      rw [(passes_compact value).skip_append [] rest hrest, skip]
    rw [hskip]
    rfl

/-- Reading members up to the end of the object decodes them. -/
theorem readMembers_later (isFirst : Bool) (switch : Option Bool) (member : String × Json)
    (members : List (String × Json)) (rest : List Char) :
    (readMembers isFirst switch (memberLead isFirst ++
        (memberText member ++ Bracket.object.later (members.map memberText) rest))).toOption =
      (switchIn switch (member :: members)).toOption.map (·, rest) := by
  induction members generalizing isFirst switch member with
  | nil =>
    rw [readMembers_member isFirst switch member (endsNumber_later _ _ _), switchIn_cons,
      Option.map_bind]
    congr 1
    funext next
    exact congrArg Except.toOption (readMembers_closed false next rest)
  | cons second members ih =>
    rw [readMembers_member isFirst switch member (endsNumber_later _ _ _), switchIn_cons,
      Option.map_bind]
    congr 1
    funext next
    rw [List.map_cons, Bracket.later_cons]
    exact ih false next second

theorem readMembers_compact (members : List (String × Json)) (rest : List Char) :
    (readMembers true none ([','].intercalate (members.map memberText) ++ '}' :: rest)).toOption =
      (switchIn none members).toOption.map (·, rest) := by
  cases members with
  | nil => exact congrArg Except.toOption (readMembers_closed true none rest)
  | cons member members =>
    have htext : [','].intercalate ((member :: members).map memberText) ++ '}' :: rest =
        memberText member ++ Bracket.object.later (members.map memberText) rest :=
      intercalate_append_closing .object ..
    rw [htext]
    exact readMembers_later true none member members rest

/-! ### Whole configurations -/

theorem readListEnd_closed (rest : List Char) : readListEnd (']' :: rest) = .ok rest := by
  simp [readListEnd, skipBlanks_cons, isBlank]

theorem readListEnd_comma (cs : List Char) : ∃ stop, readListEnd (',' :: cs) = .error stop := by
  simp only [readListEnd, skipBlanks_cons (by decide : isBlank ',' = false), Char.reduceEq,
    ↓reduceIte]
  split
  · exact ⟨_, rfl⟩
  · split <;> exact ⟨_, rfl⟩

theorem readArray_compact (elements : List Json) (rest : List Char) :
    (readArray ([','].intercalate (elements.map compact) ++ ']' :: rest)).toOption =
      (decode (.array elements)).toOption.map (·, rest) := by
  cases elements with
  | nil => simp [readArray, decode, skipBlanks_cons, isBlank, Except.toOption]
  | cons first others =>
    have htext : [','].intercalate ((first :: others).map compact) ++ ']' :: rest =
        first.compact ++ Bracket.list.later (others.map compact) rest :=
      intercalate_append_closing .list ..
    have hopen := skipBlanks_compact first (Bracket.list.later (others.map compact) rest)
    have hswitch := readSwitch_compact first (Bracket.list.later (others.map compact) rest)
    obtain ⟨⟨c, cs, hfirst, _, hclose, _⟩, _⟩ := passes_compact first
    rw [htext, decode, readArray]
    rw [hfirst, List.cons_append] at hopen hswitch ⊢
    rcases hswitch with ⟨switch, hvalue, hread⟩ | ⟨⟨fault, hvalue⟩, stop, hread⟩
    · simp only [hopen, hclose, hread, hvalue, ↓reduceIte]
      cases others with
      | nil =>
        have hend : readListEnd (Bracket.list.later [] rest) = .ok rest := readListEnd_closed rest
        rw [List.map_nil, hend]
        rfl
      | cons second others =>
        obtain ⟨stop, hend⟩ :=
          readListEnd_comma (second.compact ++ Bracket.list.later (others.map compact) rest)
        rw [List.map_cons, Bracket.later_cons, hend]
        rfl
    · simp only [hopen, hclose, hread, hvalue, ↓reduceIte]
      rfl

/-- Reading the text of a value decodes the value. -/
theorem readConfig_compact (value : Json) (rest : List Char) :
    (readConfig (value.compact ++ rest)).toOption = (decode value).toOption.map (·, rest) := by
  have hopen := skipBlanks_compact value rest
  by_cases harray : ∃ elements, value = .array elements
  · obtain ⟨elements, rfl⟩ := harray
    rw [← readArray_compact, readConfig, hopen]
    simp [compact, elementTexts_eq]
  by_cases hobject : ∃ members, value = .object members
  · obtain ⟨members, rfl⟩ := hobject
    rw [decode, ← readMembers_compact, readConfig, hopen]
    simp [compact, memberTexts_eq]
  · obtain ⟨c, cs, htext, _, hlist, hmembers⟩ := exists_compact value
    have hdecode : (decode value).toOption = none := by
      cases value with
      | array elements => exact absurd ⟨elements, rfl⟩ harray
      | object members => exact absurd ⟨members, rfl⟩ hobject
      | _ => rfl
    rw [readConfig, hdecode]
    rw [htext, List.cons_append] at hopen ⊢
    simp only [hopen, if_neg (mt hlist harray), if_neg (mt hmembers hobject)]
    rfl

theorem read_compact (value : Json) : (read value.compact).toOption = (decode value).toOption := by
  have hread := readConfig_compact value []
  rw [List.append_nil] at hread
  rw [read]
  cases hconfig : readConfig value.compact with
  | error stop =>
    rw [hconfig] at hread
    exact (Option.map_eq_none_iff.mp hread.symm).symm
  | ok found =>
    rw [hconfig] at hread
    obtain ⟨config, hdecode, rfl⟩ := Option.map_eq_some_iff.mp hread.symm
    rw [hdecode]
    rfl

theorem eq_ok_of_toOption {ε α : Type} {outcome : Except ε α} {a : α}
    (h : outcome.toOption = some a) : outcome = .ok a := by
  cases outcome with
  | error e => simp [Except.toOption] at h
  | ok b => exact congrArg Except.ok (Option.some.inj h)

theorem toOption_ofText (text : String) : (ofText text).toOption = (read text.toList).toOption := by
  rw [ofText]
  cases read text.toList <;> rfl

theorem toOption_ofValue (value : Json) : (ofValue value).toOption = (decode value).toOption := by
  rw [ofValue]
  cases decode value <;> rfl

/-! ### Accepted values -/

theorem mk_eq_iff (switch : Bool) (config : Config) :
    ⟨switch⟩ = config ↔ config.skipMarked = switch := by
  obtain ⟨found⟩ := config
  simp [eq_comm]

/-- Once the switch is known, it must not come again. -/
theorem switchIn_some_iff (switch : Bool) (members : List (String × Json)) (config : Config) :
    switchIn (some switch) members = .ok config ↔
      members.filter (·.1 = switchName) = [] ∧ config.skipMarked = switch := by
  induction members with
  | nil => simp [switchIn, mk_eq_iff]
  | cons member members ih =>
    obtain ⟨key, value⟩ := member
    by_cases hkey : key = switchName
    · simp [switchIn, hkey]
    · simp [switchIn, hkey, ih]

theorem switchIn_none_iff (members : List (String × Json)) (config : Config) :
    switchIn none members = .ok config ↔
      members.filter (·.1 = switchName) = [] ∧ config.skipMarked = false ∨
      members.filter (·.1 = switchName) = [(switchName, .bool config.skipMarked)] := by
  induction members with
  | nil => simp [switchIn, mk_eq_iff]
  | cons member members ih =>
    obtain ⟨key, value⟩ := member
    by_cases hkey : key = switchName
    · subst hkey
      cases value with
      | bool switch => simp [switchIn, switchOf, switchIn_some_iff, and_comm, eq_comm (a := switch)]
      | _ => simp [switchIn, switchOf]
    · simp [switchIn, hkey, ih]

/-- The values that are configurations. -/
theorem decode_iff (value : Json) (config : Config) :
    decode value = .ok config ↔
      (∃ members, value = .object members ∧
        (members.filter (·.1 = switchName) = [] ∧ config.skipMarked = false ∨
          members.filter (·.1 = switchName) = [(switchName, .bool config.skipMarked)])) ∨
      value = .array [] ∧ config.skipMarked = false ∨
      value = .array [.bool config.skipMarked] := by
  cases value with
  | object members => simp [decode, switchIn_none_iff]
  | array elements =>
    cases elements with
    | nil => simp [decode, mk_eq_iff]
    | cons first others =>
      cases first with
      | bool switch =>
        cases others with
        | nil => simp [decode, switchOf, mk_eq_iff, eq_comm (a := switch)]
        | cons second others => simp [decode, switchOf]
      | _ => simp [decode, switchOf]
  | _ => simp [decode]

theorem text_eq_compact (config : Config) :
    config.text = String.ofList (compact (.object [(switchName, .bool config.skipMarked)])) := by
  obtain ⟨switch⟩ := config
  cases switch <;> decide

/-- Both decoders agree on every value, whatever its members and their depth: both refuse it, or
both give the same configuration. They accept objects with at most one switch, which is a boolean,
and arrays of at most one boolean; without a switch it is off. The text of a configuration gives
the configuration back. -/
theorem ofText_compact_agrees (value : Json) :
    (ofText (String.ofList value.compact)).toOption = (ofValue value).toOption ∧
    (∀ config, ofValue value = .ok config ↔
      (∃ members, value = .object members ∧
        (members.filter (·.1 = switchName) = [] ∧ config.skipMarked = false ∨
          members.filter (·.1 = switchName) = [(switchName, .bool config.skipMarked)])) ∨
      value = .array [] ∧ config.skipMarked = false ∨
      value = .array [.bool config.skipMarked]) ∧
    ∀ config : Config, ofText config.text = .ok config := by
  have hagree : ∀ value : Json,
      (ofText (String.ofList value.compact)).toOption = (ofValue value).toOption := by
    intro value
    rw [toOption_ofText, String.toList_ofList, read_compact, toOption_ofValue]
  refine ⟨hagree value, ?_, ?_⟩
  · intro config
    rw [← decode_iff, ofValue]
    cases decode value <;> simp
  · intro config
    have hvalue : ofValue (.object [(switchName, .bool config.skipMarked)]) = .ok config := by
      simp [ofValue, decode, switchIn, switchOf]
    have htext := hagree (.object [(switchName, .bool config.skipMarked)])
    rw [← text_eq_compact, hvalue] at htext
    exact eq_ok_of_toOption htext

end Config

end EntryTrace
