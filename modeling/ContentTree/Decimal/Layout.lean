import ContentTree.Decimal.Shortest

/-!
# Layouts of decimals

Two ways to write a float with its shortest digits: positional at any size, for display, and the
way of JSON documents, where very large and very small numbers have an exponent.

## Main definitions

* `plain`: positional, as in `0.0000001` and `10000000000000000`.
* `json`: positional with at least one decimal place from `1e-5` up to below `1e16`, and with a
  signed exponent outside.
-/

namespace ContentTree.Decimal

/-- The decimal digits of a number as characters. -/
def digitChars (n : Nat) : List Char :=
  Nat.toDigits 10 n

private def zeros (n : Nat) : List Char :=
  List.replicate n '0'

/-- Positional digits. Whole numbers have no point. -/
def positional (s : Scaled) : List Char :=
  let digits := digitChars s.digits
  if 0 ≤ s.exponent then digits ++ zeros s.exponent.toNat
  else
    let places := (-s.exponent).toNat
    if places < digits.length then
      digits.take (digits.length - places) ++ '.' :: digits.drop (digits.length - places)
    else
      '0' :: '.' :: zeros (places - digits.length) ++ digits

/-- One digit before the point, and the exponent with its sign. -/
def scientific (s : Scaled) : List Char :=
  let digits := digitChars s.digits
  let exponent := s.exponent + digits.length - 1
  let rest := digits.drop 1
  let power := if 0 ≤ exponent then '+' :: digitChars exponent.toNat
    else '-' :: digitChars (-exponent).toNat
  digits.take 1 ++ (if rest.isEmpty then [] else '.' :: rest) ++ 'e' :: power

/-- Whether the sign bit of a float is set; minus zero has it set. -/
def isNegative (x : Float) : Bool :=
  Nat.pow 2 63 ≤ x.toBits.toNat

private def signed (x : Float) (magnitude : List Char) : String :=
  String.ofList (if isNegative x then '-' :: magnitude else magnitude)

/-- A float in positional notation. -/
def plain (x : Float) : String :=
  if x.isNaN then "NaN"
  else if x.isInf then signed x "inf".toList
  else
    let b := Binary.ofFloat x
    signed x (if b.mantissa = 0 then ['0'] else positional (shortest .up b))

/-- A finite float in a JSON document. -/
def json (x : Float) : String :=
  let b := Binary.ofFloat x
  if b.mantissa = 0 then signed x "0.0".toList
  else
    let s := shortest .even b
    let top := s.exponent + (digitChars s.digits).length - 1
    if -5 ≤ top && top < 16 then
      signed x (positional s ++ if 0 ≤ s.exponent then ['.', '0'] else [])
    else signed x (scientific s)

end ContentTree.Decimal
