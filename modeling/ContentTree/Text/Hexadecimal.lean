/-!
# Hexadecimal digits

## Main definitions

* `hexDigit`, `hexValue?`: a digit of a number below sixteen, and the number of a digit.
* `hexPadded`: a fixed number of digits; `hex`: as many as the number needs.
-/

namespace ContentTree.Text

/-- The hexadecimal digit of a number below sixteen. -/
def hexDigit (n : Nat) : Char :=
  if n < 10 then Char.ofNat (48 + n) else Char.ofNat (87 + n)

/-- The number a hexadecimal digit stands for, in either case. -/
def hexValue? (c : Char) : Option Nat :=
  if '0' ≤ c ∧ c ≤ '9' then some (c.toNat - 48)
  else if 'a' ≤ c ∧ c ≤ 'f' then some (c.toNat - 87)
  else if 'A' ≤ c ∧ c ≤ 'F' then some (c.toNat - 55)
  else none

/-- The last `width` hexadecimal digits of a number, in lower case. -/
def hexPadded : (width : Nat) → Nat → List Char
  | 0, _ => []
  | width + 1, n => hexPadded width (n / 16) ++ [hexDigit (n % 16)]

/-- A number below 2 ^ 64 in hexadecimal without leading zeros. -/
def hex (n : Nat) : List Char :=
  match (hexPadded 16 n).dropWhile (· = '0') with
  | [] => ['0']
  | digits => digits

end ContentTree.Text
