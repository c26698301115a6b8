/-!
# Shortest decimals

The shortest decimal that reads back as a given binary floating-point number. A finite number is
`mantissa * 2 ^ exponent`; the reals that round to it form an interval around it, ends included
when the mantissa is even. For one digit, two digits and so on, the two neighbours of the number
on that decimal grid are tested against the interval. The first grid with a hit wins, and of two
hits the nearer one.

## Main definitions

* `Binary.ofFloat`: mantissa and exponent of a float.
* `Scaled`: a whole number times a power of ten.
* `shortest`: the shortest decimal of a number.
-/

namespace ContentTree.Decimal

/-- The magnitude of a finite float: `mantissa * 2 ^ exponent`. -/
structure Binary where
  mantissa : Nat
  exponent : Int
  /-- Whether the next smaller float is only half as far away as the next larger one. -/
  narrowBelow : Bool
deriving DecidableEq

/-- The magnitude of a finite float, from its bits. -/
def Binary.ofFloat (x : Float) : Binary :=
  let bits : Nat := x.toBits.toNat
  let fraction : Nat := bits % Nat.pow 2 52
  let biased : Nat := bits / Nat.pow 2 52 % Nat.pow 2 11
  if biased = 0 then ⟨fraction, -1074, false⟩
  else ⟨fraction + Nat.pow 2 52, (biased : Int) - 1075, fraction = 0 && 1 < biased⟩

/-- The number `digits * 10 ^ exponent`. -/
structure Scaled where
  digits : Nat
  exponent : Int
deriving DecidableEq

/-- Where two shortest decimals are equally near, the one with the larger last digit or the one
with the even last digit is taken. -/
inductive Tie
  | up
  | even
deriving DecidableEq

/-- How many decimal digits a number has. -/
def width (n : Nat) : Nat :=
  (Nat.toDigits 10 n).length

/-- The exponent of the first digit of the quotient of two positive numbers. -/
def leading (numerator denominator : Nat) : Int :=
  if denominator ≤ numerator then (width (numerator / denominator) : Int) - 1
  else -(width ((denominator + numerator - 1) / numerator - 1) : Int)

/-- The neighbours on one decimal grid. The number is `value / unit` steps of the grid and the
interval reaches from `low / unit` to `high / unit`. -/
def onGrid (tie : Tie) (closed : Bool) (low value high unit : Nat) : Option Nat :=
  let hit (d : Nat) : Bool :=
    if closed then low ≤ d * unit && d * unit ≤ high else low < d * unit && d * unit < high
  let d := value / unit
  match hit d, hit (d + 1) with
  | true, false => some d
  | false, true => some (d + 1)
  | false, false => none
  | true, true =>
    match compare (2 * value) ((2 * d + 1) * unit), tie with
    | .lt, _ => some d
    | .gt, _ => some (d + 1)
    | .eq, .up => some (d + 1)
    | .eq, .even => some (if d % 2 = 0 then d else d + 1)

/-- Drops the zeros at the end of the digits, at most `fuel` of them. -/
def Scaled.trimmed : (fuel : Nat) → Scaled → Scaled
  | 0, s => s
  | fuel + 1, s =>
    if s.digits % 10 = 0 && s.digits ≠ 0 then Scaled.trimmed fuel ⟨s.digits / 10, s.exponent + 1⟩
    else s

/-- The shortest decimal that reads back as a positive binary number. Seventeen digits are always
enough. -/
def shortest (tie : Tie) (b : Binary) : Scaled :=
  -- quarters of the mantissa make the ends of the interval whole numbers
  let value := 4 * b.mantissa
  let low := if b.narrowBelow then value - 1 else value - 2
  let high := value + 2
  let exponent := b.exponent - 2
  let up := Nat.pow 2 exponent.toNat
  let down := Nat.pow 2 (-exponent).toNat
  let top := leading (value * up) down
  let attempt (n : Nat) : Option Scaled :=
    let k := top - n
    let grow := up * Nat.pow 10 (-k).toNat
    (onGrid tie (b.mantissa % 2 = 0) (low * grow) (value * grow) (high * grow)
      (down * Nat.pow 10 k.toNat)).map (⟨·, k⟩)
  match (List.range 18).findSome? attempt with
  | some s => s.trimmed 18
  | none => ⟨0, 0⟩

end ContentTree.Decimal
