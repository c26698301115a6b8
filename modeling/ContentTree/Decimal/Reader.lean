/-!
# Reading decimals

A decimal read as the nearest float, and the numeric texts that are compared with numbers.

## Main definitions

* `nearest`: the float nearest to `digits * 10 ^ exponent`.
* `ofText?`: the number a text stands for: an optional sign, then digits with an optional point
  and an optional exponent, or `inf`, `infinity` or `nan` in any case.
-/

namespace ContentTree.Decimal

/-- Whether a character is one of the ten digits. -/
def isDigit (c : Char) : Bool :=
  '0' ≤ c && c ≤ '9'

/-- The number a list of digits stands for, after those read before. -/
def valueFrom (start : Nat) (digits : List Char) : Nat :=
  digits.foldl (fun n c => 10 * n + (c.toNat - 48)) start

/-- The number a list of digits stands for. -/
def value (digits : List Char) : Nat :=
  valueFrom 0 digits

/-- A float larger than every finite one. -/
def infinite : Float := 1.0 / 0.0

/-- The float nearest to `digits * 10 ^ exponent`. Far outside the range of floats the answer is
zero or infinite, whatever the exponent. -/
def nearest (digits : Nat) (exponent : Int) : Float :=
  let top := exponent + (Nat.toDigits 10 digits).length
  if digits = 0 || top < -400 then 0.0
  else if 400 < top then infinite
  else if 0 ≤ exponent then Float.ofScientific digits false exponent.toNat
  else Float.ofScientific digits true (-exponent).toNat

/-- The exponent at the end of a text, zero where nothing is left of it. -/
def exponent? : List Char → Option Int
  | [] => some 0
  | e :: text =>
    if e = 'e' || e = 'E' then
      let (negative, digits) := match text with
        | '-' :: digits => (true, digits)
        | '+' :: digits => (false, digits)
        | digits => (false, digits)
      if digits.isEmpty || !digits.all isDigit then none
      else some (if negative then -(value digits : Int) else value digits)
    else none

/-- The number that a text without a sign stands for. -/
def magnitude? (text : List Char) : Option Float :=
  let word := String.ofList (text.map Char.toLower)
  if word = "inf" || word = "infinity" then some infinite
  else if word = "nan" then some (0.0 / 0.0)
  else
    let whole := text.takeWhile isDigit
    let (places, rest) := match text.dropWhile isDigit with
      | '.' :: rest => (rest.takeWhile isDigit, rest.dropWhile isDigit)
      | rest => ([], rest)
    if whole.isEmpty && places.isEmpty then none
    else (exponent? rest).map fun e => nearest (value (whole ++ places)) (e - places.length)

/-- The number a text stands for. -/
def ofText? : List Char → Option Float
  | '-' :: text => (magnitude? text).map Float.neg
  | '+' :: text => magnitude? text
  | text => magnitude? text

end ContentTree.Decimal
