import TaskTidy.Toml.Text
import TaskTidy.Toml.Value

/-!
# Numbers, dates and times

Integers have 64 bits and four radixes. A number with a fraction or an exponent is a decimal. Dates
and times have no type of their own: they are strings in their usual spelling.
-/

namespace TaskTidy.Toml.Reader

/-- The number that digits stand for. -/
def numberOf (radix : Nat) (digits : List Nat) : Nat :=
  digits.foldl (fun sum d => sum * radix + d) 0

/-- The value of a digit below a radix. -/
def digitBelow? (radix : Nat) (c : Char) : Option Nat :=
  (hexDigit? c).filter (· < radix)

/-- At least one digit; an underscore stands between two digits. -/
def digits? (radix : Nat) : List Char → Reading (List Nat)
  | [] => none
  | c :: '_' :: rest =>
      match digitBelow? radix c, digits? radix rest with
      | some d, some (ds, last) => some (d :: ds, last)
      | _, _ => none
  | c :: rest =>
      match digitBelow? radix c, digits? radix rest with
      | some d, some (ds, last) => some (d :: ds, last)
      | some d, none => some ([d], rest)
      | none, _ => none

/-- The number of integers of 64 bits that are not negative. -/
def integerBound : Nat := 0x8000000000000000

/-- A sign, if there is one, and whether it is a minus. -/
def sign (s : List Char) : Bool × List Char :=
  match s with
  | '-' :: rest => (true, rest)
  | '+' :: rest => (false, rest)
  | _ => (false, s)

/-- The decimal digits of a whole number. Only zero itself starts with a zero. -/
def wholeDigits? (s : List Char) : Reading (List Nat) :=
  match digits? 10 s with
  | some (0 :: _ :: _, _) => none
  | reading => reading

/-- An integer without a sign in another radix than ten. -/
def radixInteger? (s : List Char) : Reading Value :=
  let digits := match s with
    | '0' :: 'x' :: rest => (digits? 16 rest).map fun (ds, last) => (numberOf 16 ds, last)
    | '0' :: 'o' :: rest => (digits? 8 rest).map fun (ds, last) => (numberOf 8 ds, last)
    | '0' :: 'b' :: rest => (digits? 2 rest).map fun (ds, last) => (numberOf 2 ds, last)
    | _ => none
  match digits with
  | some (n, rest) => if n < integerBound then some (.integer n, rest) else none
  | none => none

/-- A decimal integer. -/
def integer? (s : List Char) : Reading Value :=
  let (negative, unsigned) := sign s
  match wholeDigits? unsigned with
  | none => none
  | some (ds, rest) =>
      let n := numberOf 10 ds
      if negative then
        if n ≤ integerBound then some (.integer (-(n : Int)), rest) else none
      else if n < integerBound then some (.integer n, rest)
      else none

/-- The fraction of a decimal, with its point. -/
def fraction? (s : List Char) : Reading (List Nat) :=
  match s with
  | '.' :: rest => digits? 10 rest
  | _ => none

/-- The exponent of a decimal, with its letter. -/
def exponent? (s : List Char) : Reading Int :=
  let magnitude := fun rest =>
    let (negative, unsigned) := sign rest
    (digits? 10 unsigned).map fun (ds, last) =>
      let n : Int := numberOf 10 ds
      (if negative then -n else n, last)
  match s with
  | 'e' :: rest => magnitude rest
  | 'E' :: rest => magnitude rest
  | _ => none

/-- The names of the decimals that are not finite. -/
def notFinite? (negative : Bool) (s : List Char) : Reading Decimal :=
  match Text.strip? "inf".toList s, Text.strip? "nan".toList s with
  | some rest, _ => some (.infinite negative, rest)
  | none, some rest => some (.undefined, rest)
  | none, none => none

/-- The decimal of whole digits, digits after the point and an exponent. A positive one must be in
range. -/
def decimalOf? (negative : Bool) (whole places : List Nat) (exponent : Int) : Option Value :=
  let x := Decimal.ofDigits negative (numberOf 10 (whole ++ places)) (exponent - places.length)
  if x = .infinite false then none else some (.decimal x)

/-- A decimal: a whole number with a fraction, an exponent or both. -/
def decimal? (s : List Char) : Reading Value :=
  let (negative, unsigned) := sign s
  match wholeDigits? unsigned with
  | none => (notFinite? negative unsigned).map fun (x, rest) => (.decimal x, rest)
  | some (whole, rest) =>
      match fraction? rest, exponent? rest with
      | some (places, more), _ =>
          let (e, last) := (exponent? more).getD (0, more)
          (decimalOf? negative whole places e).map fun x => (x, last)
      | none, some (e, last) => (decimalOf? negative whole [] e).map fun x => (x, last)
      | none, none => none

/-- A number of exactly `n` digits with its digits. -/
def fixedDigits? (n : Nat) (s : List Char) : Reading (Nat × List Char) :=
  let ds := s.take n
  if ds.length = n ∧ ds.all Char.isDigit then
    some ((numberOf 10 (ds.map fun c => c.toNat - 48), ds), s.drop n)
  else none

/-- The days of a month. -/
def daysIn (year month : Nat) : Nat :=
  if month = 2 then
    if year % 4 = 0 ∧ (year % 100 ≠ 0 ∨ year % 400 = 0) then 29 else 28
  else if month = 4 ∨ month = 6 ∨ month = 9 ∨ month = 11 then 30
  else 31

/-- A date, as in `1987-07-05`. -/
def date? (s : List Char) : Option (List Char × List Char) := do
  let ((year, ys), s) ← fixedDigits? 4 s
  let s ← Text.strip? ['-'] s
  let ((month, ms), s) ← fixedDigits? 2 s
  let s ← Text.strip? ['-'] s
  let ((day, ds), s) ← fixedDigits? 2 s
  if 1 ≤ month ∧ month ≤ 12 ∧ 1 ≤ day ∧ day ≤ daysIn year month then
    some (ys ++ '-' :: ms ++ '-' :: ds, s)
  else none

/-- The fraction of a second. Nine digits count, and trailing zeros are dropped. -/
def secondFraction (s : List Char) : List Char × List Char :=
  match s with
  | '.' :: rest =>
      let ds := rest.takeWhile Char.isDigit
      let kept := Text.dropEndWhile (· == '0') (ds.take 9)
      if ds.isEmpty then ([], s)
      else (if kept.isEmpty then [] else '.' :: kept, rest.dropWhile Char.isDigit)
  | _ => ([], s)

/-- Hours and minutes, as in `17:45`. -/
def clock? (s : List Char) : Option (List Char × List Char) := do
  let ((hour, hs), s) ← fixedDigits? 2 s
  let s ← Text.strip? [':'] s
  let ((minute, ms), s) ← fixedDigits? 2 s
  if hour ≤ 23 ∧ minute ≤ 59 then some (hs ++ ':' :: ms, s) else none

/-- A time, as in `17:45:00.25`. -/
def time? (s : List Char) : Option (List Char × List Char) := do
  let (clock, s) ← clock? s
  let s ← Text.strip? [':'] s
  let ((second, ss), s) ← fixedDigits? 2 s
  let (fraction, s) := secondFraction s
  if second ≤ 60 then some (clock ++ ':' :: ss ++ fraction, s) else none

/-- The offset of a time, if there is one. -/
def offset (s : List Char) : List Char × List Char :=
  let signed := fun sign rest =>
    match clock? rest with
    | none => ([], s)
    | some (clock, last) =>
        (if clock = "00:00".toList then '+' :: clock else sign :: clock, last)
  match s with
  | 'Z' :: rest => (['Z'], rest)
  | 'z' :: rest => (['Z'], rest)
  | '+' :: rest => signed '+' rest
  | '-' :: rest => signed '-' rest
  | _ => ([], s)

/-- The time after a date, with its offset. -/
def timeOfDay? (s : List Char) : Reading (List Char) :=
  match s with
  | [] => none
  | c :: rest =>
      if c = 'T' ∨ c = 't' ∨ c = ' ' then
        (time? rest).map fun (time, more) =>
          let (offset, last) := offset more
          ('T' :: time ++ offset, last)
      else none

/-- A date, a time, or both. -/
def moment? (s : List Char) : Reading Value :=
  let text := match date? s with
    | some (date, rest) =>
        match timeOfDay? rest with
        | some (time, last) => some (date ++ time, last)
        | none => some (date, rest)
    | none => time? s
  text.map fun (text, last) => (.string (String.ofList text), last)

/-- A number, a date or a time. -/
def number? (s : List Char) : Reading Value :=
  moment? s <|> decimal? s <|> radixInteger? s <|> integer? s

end TaskTidy.Toml.Reader
