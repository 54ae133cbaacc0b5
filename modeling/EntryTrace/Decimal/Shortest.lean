/-!
# The shortest decimal of a binary fraction

A binary floating-point value stands for every real number nearer to it than to its neighbours.
Among the decimals in that interval `shortest` takes one with the fewest digits, and of those the
nearest to the value. All comparisons are made in natural numbers.
-/

namespace EntryTrace.Decimal

set_option autoImplicit false

/-- The value `digits * 10 ^ exponent`. -/
structure Scaled where
  digits : Nat
  exponent : Int
  deriving DecidableEq, Repr

/-- A positive binary value `mantissa * 2 ^ exponent`; `narrow` says that the neighbour below is only
half as far away as the one above, as it is below a power of two. -/
structure Binary where
  mantissa : Nat
  exponent : Int
  narrow : Bool
  deriving DecidableEq, Repr

namespace Binary

/-- The positive finite value with these bits, sign aside. -/
def ofBits (bits : UInt64) : Binary :=
  let hidden := Nat.pow 2 52
  let fraction := bits.toNat % hidden
  let biased := bits.toNat / hidden % 2048
  if biased = 0 then ⟨fraction, -1074, false⟩
  else ⟨hidden + fraction, Int.ofNat biased - 1075, fraction = 0 && biased > 1⟩

/-- Lower end, value and upper end of the rounding interval, in quarters of the last place. -/
def quarters (b : Binary) : Nat × Nat × Nat :=
  (4 * b.mantissa - (if b.narrow then 1 else 2), 4 * b.mantissa, 4 * b.mantissa + 2)

/-- Factors `(p, q)` such that `n` units of the decimal place `10 ^ place` stand to `x` quarters as
`n * p` to `x * q`. -/
def factors (b : Binary) (place : Int) : Nat × Nat :=
  (Nat.pow 10 place.toNat * Nat.pow 2 (2 - b.exponent).toNat,
    Nat.pow 2 (b.exponent - 2).toNat * Nat.pow 10 (-place).toNat)

/-- Whether `n` units of the decimal place round to the value; the ends do if the mantissa is even. -/
def covers (b : Binary) (place : Int) (n : Nat) : Bool :=
  let (low, _, high) := b.quarters
  let (p, q) := b.factors place
  if b.mantissa % 2 = 0 then low * q ≤ n * p && n * p ≤ high * q
  else low * q < n * p && n * p < high * q

/-- The multiple of the decimal place nearest to the value, if one of its two neighbours rounds to it. -/
def nearest? (b : Binary) (place : Int) : Option Nat :=
  let (_, value, _) := b.quarters
  let (p, q) := b.factors place
  let below := value * q / p
  match b.covers place below, b.covers place (below + 1) with
  | true, false => some below
  | false, true => some (below + 1)
  | false, false => none
  | true, true =>
    let down := value * q - below * p
    let up := (below + 1) * p - value * q
    if down < up || (down = up && below % 2 = 0) then some below else some (below + 1)

/-- The place of the leading decimal digit. -/
def leadingPlace (b : Binary) : Int :=
  let top := b.mantissa * Nat.pow 2 b.exponent.toNat
  let bottom := Nat.pow 2 (-b.exponent).toNat
  let guess := Int.ofNat (Nat.toDigits 10 top).length - Int.ofNat (Nat.toDigits 10 bottom).length
  if top * Nat.pow 10 (-guess).toNat < bottom * Nat.pow 10 guess.toNat then guess - 1 else guess

/-- The shortest decimal that rounds to the value; seventeen digits are always enough. -/
def shortest (b : Binary) : Scaled :=
  let places := (List.range 17).map fun n => b.leadingPlace - Int.ofNat n
  (places.findSome? fun place => (b.nearest? place).map fun n => ⟨n, place⟩).getD ⟨0, 0⟩

end Binary

/-- The significant digits without trailing zeros, and the place of the first. -/
def Scaled.significant (d : Scaled) : List Char × Int :=
  let digits := Nat.toDigits 10 d.digits
  ((digits.reverse.dropWhile (· == '0')).reverse, d.exponent + Int.ofNat digits.length - 1)

/-- Which leading places are written positionally. -/
structure Range where
  lowest : Int
  highest : Int
  deriving DecidableEq, Repr

/-- A decimal with a point and at least one digit after it; outside the range with an exponent, whose
sign is always written. -/
def write (positional : Range) (digits : List Char) (place : Int) : List Char :=
  if positional.lowest ≤ place && place ≤ positional.highest then
    if place < 0 then
      "0.".toList ++ List.replicate ((-place).toNat - 1) '0' ++ digits
    else
      let whole := digits.take (place.toNat + 1)
      let fraction := digits.drop (place.toNat + 1)
      whole ++ List.replicate (place.toNat + 1 - whole.length) '0' ++ ['.'] ++
        (if fraction.isEmpty then ['0'] else fraction)
  else
    let exponent := (if place < 0 then '-' else '+') :: Nat.toDigits 10 place.natAbs
    match digits with
    | [] => []
    | first :: [] => first :: 'e' :: exponent
    | first :: rest => first :: '.' :: (rest ++ ['e'] ++ exponent)

/-- The text of a finite floating-point number in its shortest form. -/
def ofFloat (positional : Range) (x : Float) : List Char :=
  let bits := x.toBits
  let sign := if bits.toNat / Nat.pow 2 63 = 1 then ['-'] else []
  if bits.toNat % Nat.pow 2 63 = 0 then sign ++ "0.0".toList
  else
    let (digits, place) := (Binary.ofBits bits).shortest.significant
    sign ++ write positional digits place

end EntryTrace.Decimal
