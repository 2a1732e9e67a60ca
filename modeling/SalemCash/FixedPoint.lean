import Mathlib.Algebra.Order.Field.Rat
import Mathlib.Algebra.Order.Ring.Int

/-!
# Fixed-point numbers from JSON

`ParseFixedPoint` of `utilstrencodings.cpp` reads a number in JSON syntax and returns it
scaled by `10^decimals` as a signed 64-bit integer. It reads the digits of the mantissa
into `mantissa`, counting trailing zeros in `mantissa_tzeros` instead of multiplying them
in, and counts the fraction digits in `point_ofs`. Then it folds both into the exponent,
adds `decimals`, and multiplies the mantissa by ten that many times. It refuses an
exponent below zero or at least 18, and every step that could pass `10^18 - 1`.

The reader here walks the characters that remain instead of an index `ptr`; each loop of
the source is one function. `JsonNumber` is the number as the grammar spells it, with its
exact rational value.

For a mantissa of zero the two exponent checks refuse numbers whose value, zero, is
representable: `0e18` and `0e-18` are JSON numbers of value 0, and both are refused
(`ParseFixedPoint_rejects_zero`).
-/
namespace SalemCash

/-- `10^18 - 1`, the largest arbitrary decimal that fits in a signed 64-bit integer. -/
def UPPER_BOUND : Int := 1000000000000000000 - 1

/-- `ch - '0'`. -/
def digitValue (ch : Char) : Int := (ch.toNat : Int) - ('0'.toNat : Int)

/-- The loop `for (int i=0; i<=mantissa_tzeros; ++i)` of `ProcessMantissaDigit`:
`mantissa *= 10`, refused once `mantissa > UPPER_BOUND / 10`. -/
def shiftMantissa (mantissa : Int) : Nat → Option Int
  | 0 => some mantissa
  | k + 1 => if mantissa > UPPER_BOUND / 10 then none else shiftMantissa (mantissa * 10) k

/-- `ProcessMantissaDigit`: a zero is only counted; another digit first multiplies the
counted zeros and itself into the mantissa. `none` is the `return false` on overflow. -/
def ProcessMantissaDigit (ch : Char) (mantissa : Int) (mantissa_tzeros : Nat) :
    Option (Int × Nat) :=
  if ch = '0' then some (mantissa, mantissa_tzeros + 1)
  else (shiftMantissa mantissa (mantissa_tzeros + 1)).map fun m => (m + digitValue ch, 0)

/-- The digit loops of the integer part and of the fraction: the characters left, the
mantissa, `mantissa_tzeros`, and the number of digits read (`point_ofs` for the
fraction). -/
def mantissaLoop : List Char → Int → Nat → Nat → Option (List Char × Int × Nat × Nat)
  | [], mantissa, mantissa_tzeros, count => some ([], mantissa, mantissa_tzeros, count)
  | ch :: rest, mantissa, mantissa_tzeros, count =>
    if ch.isDigit then
      match ProcessMantissaDigit ch mantissa mantissa_tzeros with
      | some (mantissa, mantissa_tzeros) => mantissaLoop rest mantissa mantissa_tzeros (count + 1)
      | none => none
    else some (ch :: rest, mantissa, mantissa_tzeros, count)

/-- The digit loop of the exponent, refused once `exponent > UPPER_BOUND / 10`. -/
def exponentLoop : List Char → Int → Option (List Char × Int)
  | [], exponent => some ([], exponent)
  | ch :: rest, exponent =>
    if ch.isDigit then
      if exponent > UPPER_BOUND / 10 then none
      else exponentLoop rest (exponent * 10 + digitValue ch)
    else some (ch :: rest, exponent)

/-- The last loop, `for (int i=0; i < exponent; ++i)`: `mantissa *= 10`, refused once
`|mantissa| > UPPER_BOUND / 10`. -/
def scaleMantissa (mantissa : Int) : Nat → Option Int
  | 0 => some mantissa
  | k + 1 =>
    if mantissa > UPPER_BOUND / 10 ∨ mantissa < -(UPPER_BOUND / 10) then none
    else scaleMantissa (mantissa * 10) k

/-- The integer part: a single `0`, or a digit from `1` to `9` and the digits after it. -/
def parseIntegerPart : List Char → Option (List Char × Int × Nat)
  | '0' :: rest => some (rest, 0, 0)
  | ch :: rest =>
    if '1' ≤ ch ∧ ch ≤ '9' then
      (mantissaLoop (ch :: rest) 0 0 0).map fun (rest, mantissa, mantissa_tzeros, _) =>
        (rest, mantissa, mantissa_tzeros)
    else none
  | [] => none

/-- The optional fraction: a point and at least one digit. The last component is
`point_ofs`. -/
def parseFraction (rest : List Char) (mantissa : Int) (mantissa_tzeros : Nat) :
    Option (List Char × Int × Nat × Nat) :=
  match rest with
  | '.' :: ch :: more =>
    if ch.isDigit then mantissaLoop (ch :: more) mantissa mantissa_tzeros 0 else none
  | ['.'] => none
  | rest => some (rest, mantissa, mantissa_tzeros, 0)

/-- The sign after `e` or `E`: `true` for `-`. -/
def exponentSign : List Char → Bool × List Char
  | '+' :: more => (false, more)
  | '-' :: more => (true, more)
  | more => (false, more)

/-- The optional exponent: `e` or `E`, an optional sign and at least one digit. Returns
the characters left, `exponent_sign` and the exponent's digits' value. -/
def parseExponent : List Char → Option (List Char × Bool × Int)
  | e :: rest =>
    if e = 'e' ∨ e = 'E' then
      match exponentSign rest with
      | (exponent_sign, ch :: more) =>
        if ch.isDigit then
          (exponentLoop (ch :: more) 0).map fun (rest, exponent) => (rest, exponent_sign, exponent)
        else none
      | (_, []) => none
    else some (e :: rest, false, 0)
  | [] => some ([], false, 0)

/-- `ParseFixedPoint(val, decimals, amount_out)`: the amount written to `amount_out`, or
`none` where the source returns `false`. -/
def ParseFixedPoint (val : List Char) (decimals : Int) : Option Int := do
  let (mantissa_sign, rest) : Bool × List Char := match val with
    | '-' :: rest => (true, rest)
    | rest => (false, rest)
  let (rest, mantissa, mantissa_tzeros) ← parseIntegerPart rest
  let (rest, mantissa, mantissa_tzeros, point_ofs) ← parseFraction rest mantissa mantissa_tzeros
  let (rest, exponent_sign, exponent) ← parseExponent rest
  -- trailing garbage
  guard (rest = [])
  let exponent := if exponent_sign then -exponent else exponent
  let exponent := exponent - point_ofs + mantissa_tzeros
  let mantissa := if mantissa_sign then -mantissa else mantissa
  let exponent := exponent + decimals
  guard (0 ≤ exponent)
  guard (exponent < 18)
  let mantissa ← scaleMantissa mantissa exponent.toNat
  guard (mantissa ≤ UPPER_BOUND ∧ -UPPER_BOUND ≤ mantissa)
  pure mantissa

/-- The sign of an exponent as written: none, `+` or `-`. -/
inductive ExponentSign
  | none
  | plus
  | minus
  deriving DecidableEq, Repr

/-- A number as the JSON grammar `-?(0|[1-9][0-9]*)(.[0-9]+)?([eE][+-]?[0-9]+)?` spells it,
with its digits as numbers. There is no fraction when `fracDigits` is empty; the flag of
the exponent says whether its letter is `E`. -/
structure JsonNumber where
  negative : Bool
  intDigits : List Nat
  fracDigits : List Nat
  exponent : Option (Bool × ExponentSign × List Nat)
  deriving DecidableEq, Repr

/-- The digits allowed: the integer part is `0` or starts with a non-zero digit, and an
exponent has at least one digit. -/
def JsonNumber.WellFormed (n : JsonNumber) : Prop :=
  (n.intDigits = [0] ∨ 0 < n.intDigits.headD 0) ∧
  (∀ d ∈ n.intDigits ++ n.fracDigits, d < 10) ∧
  n.exponent.all (fun e => e.2.2 ≠ [] ∧ ∀ d ∈ e.2.2, d < 10) = true

instance (n : JsonNumber) : Decidable n.WellFormed :=
  inferInstanceAs (Decidable ((n.intDigits = [0] ∨ 0 < n.intDigits.headD 0) ∧
    (∀ d ∈ n.intDigits ++ n.fracDigits, d < 10) ∧
    n.exponent.all (fun e => e.2.2 ≠ [] ∧ ∀ d ∈ e.2.2, d < 10) = true))

/-- The character of a decimal digit. -/
def digitChar (d : Nat) : Char := Char.ofNat ('0'.toNat + d)

def ExponentSign.render : ExponentSign → List Char
  | .none => []
  | .plus => ['+']
  | .minus => ['-']

/-- The characters of a JSON number. -/
def JsonNumber.render (n : JsonNumber) : List Char :=
  (if n.negative then ['-'] else []) ++ n.intDigits.map digitChar ++
    (if n.fracDigits = [] then [] else '.' :: n.fracDigits.map digitChar) ++
    match n.exponent with
    | none => []
    | some (upper, sign, ds) => (if upper then 'E' else 'e') :: (sign.render ++ ds.map digitChar)

/-- The number a list of decimal digits spells. -/
def digitsValue (ds : List Nat) : Nat := ds.foldl (fun acc d => 10 * acc + d) 0

/-- The exponent a JSON number writes, zero when it has none. -/
def JsonNumber.exponentValue (n : JsonNumber) : Int :=
  match n.exponent with
  | none => 0
  | some (_, .minus, ds) => -(digitsValue ds : Int)
  | some (_, _, ds) => digitsValue ds

/-- The exact rational value of a JSON number. -/
def JsonNumber.value (n : JsonNumber) : ℚ :=
  (if n.negative then -1 else 1) *
    ((digitsValue (n.intDigits ++ n.fracDigits) : ℚ) / 10 ^ n.fracDigits.length) *
    10 ^ n.exponentValue

/-- `s` is a JSON number whose value times `10^decimals` is the integer `out`, of absolute
value below `10^18`: what the header says `ParseFixedPoint` accepts. -/
def Representable (s : List Char) (decimals : Nat) (out : Int) : Prop :=
  ∃ n : JsonNumber, n.WellFormed ∧ n.render = s ∧
    n.value * 10 ^ decimals = out ∧ |out| < 10 ^ 18

/-- The JSON number `0e18`. -/
def zeroExp18 : JsonNumber := ⟨false, [0], [], some (false, .none, [1, 8])⟩

/-- The JSON number `0e-18`. -/
def zeroExpMinus18 : JsonNumber := ⟨false, [0], [], some (false, .minus, [1, 8])⟩

/-- A JSON number whose digits are all zero has the value zero. -/
theorem JsonNumber.value_eq_zero {n : JsonNumber} (h : digitsValue (n.intDigits ++ n.fracDigits) = 0) :
    n.value = 0 := by
  simp [JsonNumber.value, h]

/-- Zero written with an exponent is a JSON number of value zero, yet `ParseFixedPoint`
refuses `0e18` for every `decimals` (the exponent reaches 18) and `0e-18` for every
`decimals` up to 17 (the exponent stays below zero). -/
theorem ParseFixedPoint_rejects_zero (decimals : Nat) (hd : decimals ≤ 17) :
    (Representable "0e18".toList decimals 0 ∧ ParseFixedPoint "0e18".toList decimals = none) ∧
    (Representable "0e-18".toList decimals 0 ∧
      ParseFixedPoint "0e-18".toList decimals = none) := by
  refine ⟨⟨⟨zeroExp18, by decide, by decide, ?_, by decide⟩, ?_⟩,
    ⟨⟨zeroExpMinus18, by decide, by decide, ?_, by decide⟩, ?_⟩⟩
  · rw [JsonNumber.value_eq_zero (by decide)]
    simp
  · simp [ParseFixedPoint, parseIntegerPart, parseFraction, parseExponent, exponentSign,
      exponentLoop, digitValue]
  · rw [JsonNumber.value_eq_zero (by decide)]
    simp
  · simp [ParseFixedPoint, parseIntegerPart, parseFraction, parseExponent, exponentSign,
      exponentLoop, digitValue]
    intro _ _ hneg
    omega

/-- At the 8 decimals of `AmountFromValue`. -/
theorem ParseFixedPoint_rejects_zero_amount :
    8 ≤ 17 ∧
      (Representable "0e18".toList 8 0 ∧ ParseFixedPoint "0e18".toList 8 = none) ∧
      (Representable "0e-18".toList 8 0 ∧ ParseFixedPoint "0e-18".toList 8 = none) :=
  ⟨by decide, ParseFixedPoint_rejects_zero 8 (by decide)⟩

end SalemCash
