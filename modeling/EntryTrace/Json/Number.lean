import EntryTrace.Decimal.Shortest

/-!
# Numbers in JSON

A numeral is a number as written. Without fraction and exponent it is an integer as long as it fits
into 64 bits; every other numeral is a double. A double is found from the leading digits that fit
into 64 bits and one multiplication or division by a power of ten (more for tiny numbers), so it
can miss the nearest double by a last place.
-/

namespace EntryTrace.Json

set_option autoImplicit false

abbrev Digit := Fin 10

/-- The digit that a character of a numeral stands for. -/
def Digit.ofChar (c : Char) : Digit := ⟨(c.toNat - 48) % 10, Nat.mod_lt _ (by decide)⟩

/-- The exponent of a numeral: a sign and at least one digit. -/
structure Exponent where
  negative : Bool
  first : Digit
  rest : List Digit
  deriving DecidableEq, Repr

/-- A number as written; an empty fraction is none at all. -/
structure Numeral where
  negative : Bool
  whole : Nat
  fraction : List Digit
  exponent : Option Exponent
  deriving DecidableEq, Repr

inductive Number where
  | integer (value : Int)
  | floating (value : Float)

/-- The number is too large for a double, which is known while `unread` digits of it still follow. -/
structure OutOfRange where
  unread : Nat
  deriving DecidableEq, Repr

namespace Number

/-- Doubles are written positionally from a hundred-thousandth on and below ten quadrillions. -/
def positional : Decimal.Range := ⟨-5, 15⟩

def describe : Number → String
  | integer value => "integer `" ++ String.ofList (integerText value) ++ "`"
  | floating value => "floating point `" ++ String.ofList (Decimal.ofFloat positional value) ++ "`"
where
  integerText (value : Int) : List Char :=
    (if value < 0 then ['-'] else []) ++ Nat.toDigits 10 value.natAbs

end Number

/-- The largest significand: 64 bits. -/
def significandLimit : Nat := 18446744073709551615

/-- The largest magnitude of an exponent: 31 bits. -/
def exponentLimit : Nat := 2147483647

/-- Takes in the digits of the whole part; from the first that no longer fits on they only count. -/
def wholeDigits (significand : Nat) : List Digit → Nat × Nat
  | [] => (significand, 0)
  | d :: ds =>
    if significand * 10 + d.val ≤ significandLimit then wholeDigits (significand * 10 + d.val) ds
    else (significand, ds.length + 1)

/-- Takes in the digits of the fraction; from the first that no longer fits on they are left out. -/
def fractionDigits (significand taken : Nat) : List Digit → Nat × Nat
  | [] => (significand, taken)
  | d :: ds =>
    if significand * 10 + d.val ≤ significandLimit then
      fractionDigits (significand * 10 + d.val) (taken + 1) ds
    else (significand, taken)

/-- The value times a power of ten, none when it is infinite. Exponents below those of a double are
taken off in steps. -/
def scale (value : Float) (exponent : Int) : Option Float :=
  if exponent.natAbs ≤ 308 then
    if 0 ≤ exponent then
      let product := value * Float.ofScientific 1 false exponent.natAbs
      if product.isInf then none else some product
    else some (value / Float.ofScientific 1 false exponent.natAbs)
  else if value == 0 then some value
  else if 0 ≤ exponent then none
  else scale (value / Float.ofScientific 1 false 308) (exponent + 308)
termination_by exponent.natAbs
decreasing_by omega

namespace Exponent

/-- The digits that follow the one with which the magnitude passes its limit. -/
def overrun (magnitude : Nat) : List Digit → Option (List Digit)
  | [] => none
  | d :: ds =>
    if magnitude * 10 + d.val ≤ exponentLimit then overrun (magnitude * 10 + d.val) ds
    else some ds

def value (e : Exponent) : Int :=
  let magnitude := e.rest.foldl (fun n d => n * 10 + d.val) e.first.val
  if e.negative then - Int.ofNat magnitude else Int.ofNat magnitude

end Exponent

namespace Numeral

def isInteger (n : Numeral) : Bool := n.fraction.isEmpty && n.exponent.isNone

/-- The digits of a natural number, leading digit first. -/
def digitsOf (n : Nat) : List Digit :=
  (Nat.toDigits 10 n).map Digit.ofChar

/-- The significand that fits into 64 bits and the power of ten that goes with it. -/
def parts (n : Numeral) : Nat × Int :=
  let (whole, dropped) := wholeDigits 0 (digitsOf n.whole)
  let (significand, taken) := fractionDigits whole 0 n.fraction
  (significand, Int.ofNat dropped - Int.ofNat taken)

def signed (n : Numeral) (value : Float) : Float := if n.negative then -value else value

/-- The double that a numeral is read as. -/
def double (n : Numeral) : Except OutOfRange Float :=
  let (significand, place) := n.parts
  match n.exponent with
  | none => finish significand place
  | some e =>
    match Exponent.overrun e.first.val e.rest with
    | none => finish significand (place + e.value)
    | some unread =>
      if significand = 0 || e.negative then .ok (n.signed 0) else .error ⟨unread.length⟩
where
  finish (significand : Nat) (exponent : Int) : Except OutOfRange Float :=
    match scale (Float.ofNat significand) exponent with
    | some value => .ok (n.signed value)
    | none => .error ⟨0⟩

/-- The number that a numeral is read as. Minus zero is a double. -/
def number (n : Numeral) : Except OutOfRange Number :=
  if n.isInteger && !n.negative && n.whole ≤ significandLimit then .ok (.integer (Int.ofNat n.whole))
  else if n.isInteger && n.negative && 0 < n.whole && n.whole ≤ 9223372036854775808 then
    .ok (.integer (- Int.ofNat n.whole))
  else n.double.map Number.floating

end Numeral

end EntryTrace.Json
