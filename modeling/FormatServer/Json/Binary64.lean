import FormatServer.Text.Bytes

/-!
Double-precision numbers, held exactly as a significand times a power of two, so that rounding a
decimal and writing one back are computations on natural numbers.
-/

namespace FormatServer

/-- The quotient of two numbers, rounded to the nearest; a half goes to the even neighbour. -/
def roundedQuotient (numerator denominator : Nat) : Nat :=
  let quotient := numerator / denominator
  let remainder := numerator % denominator
  if denominator < 2 * remainder ∨ (2 * remainder = denominator ∧ quotient % 2 = 1) then
    quotient + 1
  else quotient

/-- A double-precision number other than a NaN. A finite one is `± significand · 2 ^ exponent`,
where the significand has 53 bits or the exponent is the least one. -/
inductive Binary64 where
  | finite (negative : Bool) (significand : Nat) (exponent : Int)
  | infinite (negative : Bool)
  deriving DecidableEq, Repr

namespace Binary64

/-- The least exponent. -/
def leastExponent : Int := -1074

/-- The greatest exponent. -/
def greatestExponent : Int := 971

/-- One more than the greatest significand. -/
def significandLimit : Nat := Nat.pow 2 53

/-- `numerator / denominator · 2 ^ (-exponent)` as a fraction. -/
def scale (numerator denominator : Nat) (exponent : Int) : Nat × Nat :=
  if exponent < 0 then (numerator * Nat.pow 2 exponent.natAbs, denominator)
  else (numerator, denominator * Nat.pow 2 exponent.natAbs)

/-- The number nearest to `± numerator / denominator`; a tie goes to the even significand. -/
def nearest (negative : Bool) (numerator denominator : Nat) : Binary64 :=
  if numerator = 0 then finite negative 0 leastExponent
  else
    let estimate : Int := (numerator.log2 : Int) - (denominator.log2 : Int) - 53
    let (scaled, unit) := scale numerator denominator estimate
    let fitting := if scaled < unit * significandLimit then estimate else estimate + 1
    let exponent := max fitting leastExponent
    let (scaled, unit) := scale numerator denominator exponent
    let significand := roundedQuotient scaled unit
    let (significand, exponent) :=
      if significand = significandLimit then (significandLimit / 2, exponent + 1)
      else (significand, exponent)
    if greatestExponent < exponent then infinite negative
    else finite negative significand exponent

/-- The number nearest to `± digits · 10 ^ exponent`. Exponents far outside the range of the format
are decided by the number of digits alone. -/
def ofDecimal (negative : Bool) (digits : Nat) (exponent : Int) : Binary64 :=
  let magnitude := (Nat.toDigits 10 digits).length + exponent
  if digits = 0 ∨ magnitude < -330 then nearest negative 0 1
  else if 310 < magnitude then infinite negative
  else if exponent < 0 then nearest negative digits (Nat.pow 10 exponent.natAbs)
  else nearest negative (digits * Nat.pow 10 exponent.natAbs) 1

/-- The integer that a number equals, if it equals one. -/
def toInt? : Binary64 → Option Int
  | infinite _ => none
  | finite negative significand exponent =>
    let signed (magnitude : Nat) : Int := if negative then -magnitude else magnitude
    if 0 ≤ exponent then some (signed (significand * Nat.pow 2 exponent.natAbs))
    else if significand % Nat.pow 2 exponent.natAbs = 0 then
      some (signed (significand / Nat.pow 2 exponent.natAbs))
    else none

/-- How many significant digits are written. -/
def writtenDigits : Nat := 17

/-- The significant digits of a positive fraction and the power of ten of the first one. -/
def significantDigits (numerator denominator : Nat) : Nat × Int :=
  let shift : Nat := 400
  let shifted := numerator * Nat.pow 10 shift / denominator
  let power : Int := ((Nat.toDigits 10 shifted).length : Int) - 1 - shift
  let places : Int := (writtenDigits : Int) - 1 - power
  let digits :=
    if places < 0 then roundedQuotient numerator (denominator * Nat.pow 10 places.natAbs)
    else roundedQuotient (numerator * Nat.pow 10 places.natAbs) denominator
  if digits = Nat.pow 10 writtenDigits then (Nat.pow 10 (writtenDigits - 1), power + 1)
  else (digits, power)

/-- Digits before and after a decimal point, without trailing zeros and without a point that nothing
follows. -/
def pointed (whole fraction : Bytes) : Bytes :=
  match fraction.dropWhileEnd (· == Ascii.zero) with
  | [] => whole
  | rest => whole ++ Ascii.dot :: rest

/-- Writes a number with seventeen significant digits: positional if the first one stands between
the fourth decimal place and the seventeenth place before the point, else with an exponent of at
least two digits. -/
def print : Binary64 → Bytes
  | infinite negative => if negative then "-inf" else "inf"
  | finite negative significand exponent =>
    let sign : Bytes := if negative then "-" else ""
    if significand = 0 then sign ++ Bytes.ofString "0"
    else
      let (numerator, denominator) := scale significand 1 (-exponent)
      let (digits, power) := significantDigits numerator denominator
      let text := Bytes.ofNat digits
      let body :=
        if 0 ≤ power ∧ power < writtenDigits then
          pointed (text.take (power.natAbs + 1)) (text.drop (power.natAbs + 1))
        else if -4 ≤ power ∧ power < 0 then
          pointed "0" (List.replicate (power.natAbs - 1) Ascii.zero ++ text)
        else
          let exponentDigits := Bytes.ofNat power.natAbs
          pointed (text.take 1) (text.drop 1) ++ Bytes.concat
            ["e", if power < 0 then "-" else "+",
              if exponentDigits.length < 2 then Ascii.zero :: exponentDigits else exponentDigits]
      sign ++ body

end Binary64

end FormatServer
