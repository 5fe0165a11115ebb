/-!
# Decimal numbers

A number with a fraction or an exponent has the range and the precision of 64-bit floating point:
what is too small is zero, and what is too large is infinite. Of the decimals that are read as the
same binary number, it is the shortest one that stands for all of them.
-/

namespace TaskTidy.Toml

/-- A decimal number. The value of a finite one is `digits * 10 ^ exponent`, with its sign. -/
inductive Decimal
  | finite (negative : Bool) (digits : Nat) (exponent : Int)
  | infinite (negative : Bool)
  | undefined
  deriving DecidableEq, Repr

namespace Decimal

/-- The decimal digits of a natural number. -/
def digitsOf (n : Nat) : List Char :=
  Nat.toDigits 10 n

/-- A positive fraction of two natural numbers, times a power of a base. -/
def scaled (base num den : Nat) (exponent : Int) : Nat × Nat :=
  if 0 ≤ exponent then (num * Nat.pow base exponent.toNat, den)
  else (num, den * Nat.pow base exponent.natAbs)

/-- A fraction rounded to a whole number, a half going to the even neighbour. -/
def roundDiv (num den : Nat) : Nat :=
  let whole := num / den
  let twice := 2 * (num % den)
  if den < twice ∨ (twice = den ∧ whole % 2 = 1) then whole + 1 else whole

/-- A binary number that is not negative: `significand * 2 ^ exponent`. -/
structure Binary where
  significand : Nat
  exponent : Int
  deriving DecidableEq

/-- The first number that takes more than the 53 binary digits of a significand. -/
def significandBound : Nat := 0x20000000000000

/-- The binary number nearest to a positive fraction. Its significand has 53 digits, or fewer at the
lower end of the range, where the exponent is -1074. -/
def nearest (num den : Nat) : Binary :=
  let guess : Int := (Nat.log2 num : Int) - Nat.log2 den - 53
  let (n, d) := scaled 2 num den (-guess)
  let exponent := max (-1074) (if n / d < significandBound then guess else guess + 1)
  let (n, d) := scaled 2 num den (-exponent)
  let significand := roundDiv n d
  if significand < significandBound then ⟨significand, exponent⟩
  else ⟨significand / 2, exponent + 1⟩

/-- The whole numbers beside a fraction, the nearer one first. A half is nearer to the upper one. -/
def neighbours (num den : Nat) : List Nat :=
  let whole := num / den
  if den ≤ 2 * (num % den) then [whole + 1, whole] else [whole, whole + 1]

/-- The multiple of a power of ten that is read as a binary number, if there is one. -/
def multiple? (x : Binary) (exponent : Int) : Option Nat :=
  let (n, d) := scaled 2 x.significand 1 x.exponent
  let (n, d) := scaled 10 n d (-exponent)
  (neighbours n d).find? fun digits =>
    let (n, d) := scaled 10 digits 1 exponent
    digits != 0 && nearest n d == x

/-- The shortest decimal below about `10 ^ magnitude` that is read as a binary number. Seventeen
digits tell all binary numbers apart. -/
def shortest? (x : Binary) (magnitude : Int) : Option (Nat × Int) :=
  (List.range 19).findSome? fun (k : Nat) =>
    (multiple? x (magnitude - k)).map fun digits => (digits, magnitude - k)

/-- The number that digits times a power of ten are read as. -/
def ofDigits (negative : Bool) (digits : Nat) (exponent : Int) : Decimal :=
  let magnitude := (digitsOf digits).length + exponent
  if digits = 0 ∨ magnitude < -323 then .finite negative 0 0
  else if 309 < magnitude then .infinite negative
  else
    let (n, d) := scaled 10 digits 1 exponent
    let x := nearest n d
    if x.significand = 0 then .finite negative 0 0
    else if 971 < x.exponent then .infinite negative
    else match shortest? x magnitude with
      | some (ds, e) => .finite negative ds e
      | none => .finite negative 0 0

/-- Whether a number is zero. -/
def isZero : Decimal → Bool
  | .finite _ digits _ => digits == 0
  | _ => false

/-- The whole number nearest to a number, a half going up, cut to the numbers below a bound. -/
def nearestBelow (bound : Nat) : Decimal → Nat
  | .undefined | .infinite true | .finite true _ _ => 0
  | .infinite false => bound - 1
  | .finite false digits exponent =>
      let scale := Nat.pow 10 exponent.natAbs
      let n := if 0 ≤ exponent then digits * scale else (2 * digits + scale) / (2 * scale)
      min n (bound - 1)

/-- The digits of a number with as many of them after the point as `places` says. The fraction loses
its trailing zeros, and an empty fraction its point. -/
def positional (digits places : Nat) : List Char :=
  let ds := digitsOf digits
  let padded := List.replicate (places + 1 - ds.length) '0' ++ ds
  let whole := padded.take (padded.length - places)
  let fraction := (padded.drop (padded.length - places)).reverse.dropWhile (· == '0')
  if fraction.isEmpty then whole else whole ++ '.' :: fraction.reverse

/-- The text of a number, without an exponent. -/
def text : Decimal → String
  | .undefined => "NaN"
  | .infinite negative => if negative then "-inf" else "inf"
  | .finite negative digits exponent =>
      let unsigned :=
        if 0 ≤ exponent then positional (digits * Nat.pow 10 exponent.toNat) 0
        else positional digits exponent.natAbs
      String.ofList (if negative then '-' :: unsigned else unsigned)

end Decimal

end TaskTidy.Toml
