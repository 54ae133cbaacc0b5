import EntryTrace.Config.Basic
import EntryTrace.Json.Scan
import EntryTrace.Json.Value
import EntryTrace.Problem
import EntryTrace.Text.Position

/-!
# Decoding the configuration

A configuration is an object in which only the switch matters, or an array with the switch as its
only element; in both the switch may be missing. It is decoded from text, with the position of the
first fault, or from a value.
-/

namespace EntryTrace.Config

set_option autoImplicit false

open Json

/-! ### From text -/

/-- The fault of a number where something else was expected. -/
def numberMismatch (expected : String) (negative : Bool) (cs : List Char) : Stop :=
  match readNumeral .endInValue negative cs with
  | .error stop => stop
  | .ok (numeral, rest) =>
    match numeral.number with
    | .ok value => .before (.wrongType (.number value) expected) rest
    | .error range => ⟨.numberOutOfRange, Text.byteLength rest + range.unread⟩

/-- The fault of a word where something else was expected. -/
def wordMismatch (expected : String) (letters : List Char) (found : Found) (cs : List Char) : Stop :=
  match skipWord letters cs with
  | .error stop => stop
  | .ok rest => .before (.wrongType found expected) rest

/-- The fault of text that does not start what was expected: the value that stands there is read,
which may fail itself, and then refused. -/
def mismatch (expected : String) (cs : List Char) : Stop :=
  match cs with
  | [] => .behind .expectedValue []
  | c :: rest =>
    if c = 'n' then wordMismatch expected ['u', 'l', 'l'] .null rest
    else if c = 't' then wordMismatch expected ['r', 'u', 'e'] (.bool true) rest
    else if c = 'f' then wordMismatch expected ['a', 'l', 's', 'e'] (.bool false) rest
    else if c = '-' then numberMismatch expected true rest
    else if isDigit c then numberMismatch expected false (c :: rest)
    else if c = '"' then
      match readText rest with
      | .error stop => stop
      | .ok (text, rest) => .before (.wrongType (.text text) expected) rest
    else if c = '[' then .before (.wrongType .sequence expected) (c :: rest)
    else if c = '{' then .before (.wrongType .mapping expected) (c :: rest)
    else .behind .expectedValue (c :: rest)

def expectedSwitch : String := "a boolean"

def expectedConfig : String := "struct PassConfig"

def readSwitch (cs : List Char) : Reading Bool :=
  match skipBlanks cs with
  | [] => .error (.behind .endInValue [])
  | c :: rest =>
    if c = 't' then (skipWord ['r', 'u', 'e'] rest).map fun rest => (true, rest)
    else if c = 'f' then (skipWord ['a', 'l', 's', 'e'] rest).map fun rest => (false, rest)
    else .error (mismatch expectedSwitch (c :: rest))

theorem length_of_readSwitch {cs rest : List Char} {b : Bool} (h : readSwitch cs = .ok (b, rest)) :
    rest.length < cs.length := by
  unfold readSwitch at h
  split at h
  · simp at h
  · rename_i c tail hopen
    have hopened := length_of_skipBlanks_cons hopen
    have hword {ws : List Char} {x : Bool}
        (hx : (skipWord ws tail).map (fun r => (x, r)) = .ok (b, rest)) :
        rest.length < cs.length := by
      cases hskip : skipWord ws tail with
      | error stop => simp [hskip, Except.map] at hx
      | ok r =>
        simp only [hskip, Except.map, Except.ok.injEq, Prod.mk.injEq] at hx
        have := length_of_skipWord hskip
        rw [← hx.2]
        omega
    split at h
    · exact hword h
    · split at h
      · exact hword h
      · simp at h

/-- The end of an array after its only element. -/
def readListEnd (cs : List Char) : Except Stop (List Char) :=
  match skipBlanks cs with
  | [] => .error (.behind .endInList [])
  | c :: rest =>
    if c = ']' then .ok rest
    else if c = ',' then
      match skipBlanks rest with
      | [] => .error (.behind .trailingCharacters [])
      | c :: rest =>
        if c = ']' then .error (.behind .trailingComma (c :: rest))
        else .error (.behind .trailingCharacters (c :: rest))
    else .error (.behind .trailingCharacters (c :: rest))

/-- An array after its opening bracket. -/
def readArray (cs : List Char) : Reading Config :=
  match skipBlanks cs with
  | [] => .error (.behind .endInList [])
  | c :: rest =>
    if c = ']' then .ok ({}, rest)
    else
      match readSwitch (c :: rest) with
      | .error stop => .error stop
      | .ok (switch, rest) => (readListEnd rest).map fun rest => (⟨switch⟩, rest)

/-- What stands before the key of a member: a comma unless the member is the first, and the opening
quote. -/
def readKeyStart (isFirst : Bool) (cs : List Char) : Except Stop (List Char) :=
  match cs with
  | [] => .error (.behind .endInObject [])
  | c :: rest =>
    if isFirst then
      if c = '"' then .ok rest else .error (.behind .keyNotText (c :: rest))
    else if c = ',' then
      match skipBlanks rest with
      | [] => .error (.behind .endInValue [])
      | c :: rest =>
        if c = '"' then .ok rest
        else if c = '}' then .error (.behind .trailingComma (c :: rest))
        else .error (.behind .keyNotText (c :: rest))
    else .error (.behind .expectedObjectEnd (c :: rest))

theorem length_of_readKeyStart {isFirst : Bool} {cs rest : List Char}
    (h : readKeyStart isFirst cs = .ok rest) : rest.length < cs.length := by
  unfold readKeyStart at h
  grind [→ length_of_skipBlanks_cons]

/-- The place where a second switch is reported: behind the closing brace if that comes next. -/
def repeated (cs : List Char) : Stop :=
  match skipBlanks cs with
  | '}' :: rest => .before (.duplicateField switchName) rest
  | rest => .before (.duplicateField switchName) rest

/-- The colon between a key and its value. -/
def readColon (cs : List Char) : Except Stop (List Char) :=
  match skipBlanks cs with
  | [] => .error (.behind .endInObject [])
  | c :: rest => if c = ':' then .ok rest else .error (.behind .expectedColon (c :: rest))

theorem length_of_readColon {cs rest : List Char} (h : readColon cs = .ok rest) :
    rest.length < cs.length := by
  unfold readColon at h
  grind [→ length_of_skipBlanks_cons]

/-- The members of an object that are still to come, with the switch if it has been read. -/
def readMembers (isFirst : Bool) (switch : Option Bool) (cs : List Char) : Reading Config :=
  match _hopen : skipBlanks cs with
  | [] => .error (.behind .endInObject [])
  | c :: rest =>
    if c = '}' then .ok (⟨switch.getD false⟩, rest)
    else
      match _hstart : readKeyStart isFirst (c :: rest) with
      | .error stop => .error stop
      | .ok start =>
        match _htext : readText start with
        | .error stop => .error stop
        | .ok (key, afterKey) =>
          if key = switchName.toList then
            if switch.isSome then .error (repeated afterKey)
            else
              match _hcolon : readColon afterKey with
              | .error stop => .error stop
              | .ok afterColon =>
                match _hvalue : readSwitch afterColon with
                | .error stop => .error stop
                | .ok (value, rest) => readMembers false (some value) rest
          else
            match _hcolon : readColon afterKey with
            | .error stop => .error stop
            | .ok afterColon =>
              match _hvalue : skip .value [] afterColon with
              | .error stop => .error stop
              | .ok rest => readMembers false switch rest
termination_by cs.length
decreasing_by
  · have h₁ := length_skipBlanks_le cs
    have h₂ := length_of_readKeyStart _hstart
    have h₃ := length_of_readText _htext
    have h₄ := length_of_readColon _hcolon
    have h₅ := length_of_readSwitch _hvalue
    rw [_hopen] at h₁
    omega
  · have h₁ := length_skipBlanks_le cs
    have h₂ := length_of_readKeyStart _hstart
    have h₃ := length_of_readText _htext
    have h₄ := length_of_readColon _hcolon
    have h₅ := length_of_skip _hvalue
    rw [_hopen] at h₁
    omega

/-- A configuration and whatever follows it. -/
def readConfig (cs : List Char) : Reading Config :=
  match skipBlanks cs with
  | [] => .error (.behind .endInValue [])
  | c :: rest =>
    if c = '[' then readArray rest
    else if c = '{' then readMembers true none rest
    else .error (mismatch expectedConfig (c :: rest))

/-- A configuration that takes up the whole text. -/
def read (cs : List Char) : Except Stop Config :=
  match readConfig cs with
  | .error stop => .error stop
  | .ok (config, rest) =>
    match skipBlanks rest with
    | [] => .ok config
    | c :: rest => .error (.behind .trailingCharacters (c :: rest))

/-- The problem with text at which reading stopped. -/
def problemAt (cs : List Char) (stop : Stop) : Problem :=
  let bytes := Text.bytes cs
  let position := Text.Position.ofIndex bytes (bytes.length - stop.left)
  let detail := stop.fault.message ++ " at line " ++ String.ofList (Nat.toDigits 10 position.line) ++
    " column " ++ String.ofList (Nat.toDigits 10 position.column)
  Problem.atPlace ⟨.invalidConfig, detail, none⟩
    { line := some position.line, column := some position.column }

/-- The configuration written in a text. -/
def ofText (text : String) : Except Problem Config :=
  match read text.toList with
  | .ok config => .ok config
  | .error stop => .error (problemAt text.toList stop)

/-! ### From values -/

/-- What stands for a value in a message. -/
def found : Json → Except Fault Found
  | .null => .ok .null
  | .bool value => .ok (.bool value)
  | .number numeral =>
    match numeral.number with
    | .ok value => .ok (.number value)
    | .error _ => .error .numberOutOfRange
  | .string value => .ok (.text value.toList)
  | .array _ => .ok .sequence
  | .object _ => .ok .mapping

def refuse (expected : String) (value : Json) : Fault :=
  match found value with
  | .ok found => .wrongType found expected
  | .error fault => fault

def switchOf : Json → Except Fault Bool
  | .bool value => .ok value
  | value => .error (refuse expectedSwitch value)

/-- The switch among the members of an object. -/
def switchIn (switch : Option Bool) : List (String × Json) → Except Fault Config
  | [] => .ok ⟨switch.getD false⟩
  | (key, value) :: members =>
    if key = switchName then
      if switch.isSome then .error (.duplicateField switchName)
      else
        match switchOf value with
        | .ok value => switchIn (some value) members
        | .error fault => .error fault
    else switchIn switch members

def decode : Json → Except Fault Config
  | .object members => switchIn none members
  | .array [] => .ok {}
  | .array (first :: others) =>
    match switchOf first with
    | .error fault => .error fault
    | .ok switch =>
      if others.isEmpty then .ok ⟨switch⟩ else .error (.tooManyElements (others.length + 1))
  | value => .error (refuse expectedConfig value)

/-- The configuration that a value stands for. -/
def ofValue (value : Json) : Except Problem Config :=
  match decode value with
  | .ok config => .ok config
  | .error fault => .error ⟨.invalidConfig, fault.message, none⟩

end EntryTrace.Config
