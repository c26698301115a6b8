import ContentTree.Json.Basic
import ContentTree.Decimal.Reader
import ContentTree.Text.Hexadecimal

/-!
# Tokens of JSON documents

A document is cut into punctuation, words, strings and numbers. Blanks, tabs and line ends between
tokens are passed over. A whole number that fits into 64 bits stays whole, and any other number
becomes a float. A number too large for a float is unreadable, and so is a string in which half of a
pair of surrogates stands alone.

## Main definitions

* `Token`, `tokens?`: the tokens of a text, or nothing where the text has none.
* `readString?`: the string after an opening quote.
* `Number.read?`: the number a run of characters stands for, infinite where it is too large.
-/

namespace ContentTree.Json

/-- A token of a document. -/
inductive Token
  | openArray
  | closeArray
  | openObject
  | closeObject
  | comma
  | colon
  | word (value : Json)
  /-- A string between quotes, nothing when it is unreadable. -/
  | string (s : Option String)
deriving BEq

/-! ### Strings -/

/-- The number of four hexadecimal digits. -/
def unit? (a b c d : Char) : Option Nat := do
  let a ← Text.hexValue? a
  let b ← Text.hexValue? b
  let c ← Text.hexValue? c
  let d ← Text.hexValue? d
  return ((a * 16 + b) * 16 + c) * 16 + d

/-- The character a letter stands for after a backslash. -/
def escaped? : Char → Option Char
  | '"' => some '"'
  | '\\' => some '\\'
  | '/' => some '/'
  | 'b' => some '\x08'
  | 'f' => some '\x0c'
  | 'n' => some '\n'
  | 'r' => some '\r'
  | 't' => some '\t'
  | _ => none

/-- A piece of a string: a character, or half of a pair of surrogates. -/
inductive Piece
  | char (c : Char)
  | half (unit : Nat)
deriving BEq

/-- The piece that an escaped unit of 16 bits stands for. -/
def Piece.ofUnit (n : Nat) : Piece :=
  if n < 0xd800 || 0xe000 ≤ n then .char (Char.ofNat n) else .half n

/-- The pieces up to the closing quote after those found before, last first, and what follows. -/
def readPieces? (done : List Piece) : List Char → Option (List Piece × List Char)
  | '"' :: rest => some (done.reverse, rest)
  | '\\' :: 'u' :: a :: b :: c :: d :: rest =>
    match unit? a b c d with
    | some n => readPieces? (.ofUnit n :: done) rest
    | none => none
  | '\\' :: c :: rest =>
    match escaped? c with
    | some c => readPieces? (.char c :: done) rest
    | none => none
  | c :: rest => if c < ' ' then none else readPieces? (.char c :: done) rest
  | [] => none

/-- The characters of the pieces after those found before, last first. A code point beyond U+FFFF is
given by two halves, and neither may stand alone. -/
def joinPieces? (done : List Char) : List Piece → Option (List Char)
  | [] => some done.reverse
  | .char c :: pieces => joinPieces? (c :: done) pieces
  | .half high :: .half low :: pieces =>
    if high < 0xdc00 && 0xdc00 ≤ low then
      let c := Char.ofNat (0x10000 + (high - 0xd800) * 0x400 + (low - 0xdc00))
      joinPieces? (c :: done) pieces
    else none
  | .half _ :: _ => none

/-- The string after an opening quote, nothing when it is unreadable, and what follows it. -/
def readString? (text : List Char) : Option (Option String × List Char) :=
  (readPieces? [] text).map fun (pieces, rest) => ((joinPieces? [] pieces).map String.ofList, rest)

/-! ### Numbers -/

/-- A number larger than every whole number that is kept exactly. -/
def wholeBound : Nat := Nat.pow 2 64

/-- The digits read so far as a whole number below `wholeBound`, and the power of ten it is short
by. -/
structure Significand where
  digits : Nat
  power : Int

/-- Takes the digits before the point. From the first digit that no longer fits they only raise the
power. -/
def Significand.whole (s : Significand) : List Char → Significand
  | [] => s
  | c :: cs =>
    let digits := Decimal.valueFrom s.digits [c]
    if digits < wholeBound then Significand.whole ⟨digits, s.power⟩ cs
    else ⟨s.digits, s.power + (cs.length + 1)⟩

/-- Takes the digits after the point. From the first digit that no longer fits they are dropped. -/
def Significand.places (s : Significand) : List Char → Significand
  | [] => s
  | c :: cs =>
    let digits := Decimal.valueFrom s.digits [c]
    if digits < wholeBound then Significand.places ⟨digits, s.power - 1⟩ cs else s

/-- Divides by powers of ten that are themselves floats, at most three times. -/
def scaleDown : (fuel : Nat) → Float → Nat → Float
  | 0, x, _ => x
  | fuel + 1, x, power =>
    if power ≤ 308 then x / Float.ofScientific 1 false power
    else scaleDown fuel (x / Float.ofScientific 1 false 308) (power - 308)

/-- The float of a significand: its digits times, or divided by, one power of ten. -/
def Significand.float (s : Significand) : Float :=
  let x := Float.ofNat s.digits
  if s.digits = 0 then 0.0
  else if 0 ≤ s.power then
    if s.power ≤ 308 then x * Float.ofScientific 1 false s.power.toNat else 1.0 / 0.0
  else scaleDown 4 x (-s.power).toNat

/-- The power of ten after the letter `e`. -/
def power? (text : List Char) : Option Int :=
  let (negative, digits) := match text with
    | '-' :: digits => (true, digits)
    | '+' :: digits => (false, digits)
    | digits => (false, digits)
  if digits.isEmpty || !digits.all Decimal.isDigit then none
  else
    let power : Int := Decimal.value digits
    some (if negative then -power else power)

/-- The magnitude of a number: a whole number where it has neither point nor exponent. -/
def magnitude? (text : List Char) : Option (Nat ⊕ Float) :=
  let whole := text.takeWhile Decimal.isDigit
  let rest := text.dropWhile Decimal.isDigit
  let start := Significand.whole ⟨0, 0⟩ whole
  if whole.isEmpty || (whole.head? = some '0' && 1 < whole.length) then none
  else
    match rest with
    | [] => some (if start.power = 0 then .inl start.digits else .inr start.float)
    | '.' :: rest =>
      let places := rest.takeWhile Decimal.isDigit
      let s := start.places places
      if places.isEmpty then none
      else
        match rest.dropWhile Decimal.isDigit with
        | [] => some (.inr s.float)
        | e :: text =>
          if e = 'e' || e = 'E' then
            (power? text).map fun p => .inr (Significand.float ⟨s.digits, s.power + p⟩)
          else none
    | e :: text =>
      if e = 'e' || e = 'E' then
        (power? text).map fun p => .inr (Significand.float ⟨start.digits, start.power + p⟩)
      else none

/-- The number a run of characters stands for. Minus zero is a float. -/
def Number.read? : List Char → Option Number
  | '-' :: text =>
    match magnitude? text with
    | some (.inl 0) => some (.float (-0.0))
    | some (.inl n) => some (if n ≤ Nat.pow 2 63 then .negative n else .float (-Float.ofNat n))
    | some (.inr x) => some (.float (-x))
    | none => none
  | text =>
    match magnitude? text with
    | some (.inl n) => some (.natural n)
    | some (.inr x) => some (.float x)
    | none => none

/-- A number as a document, unreadable where it is infinite. -/
def ofNumber (n : Number) : Json :=
  match n with
  | .float x => if x.isFinite then .number n else .unreadable
  | _ => .number n

/-! ### Tokens -/

/-- Blank, tab, line feed and carriage return separate tokens. -/
def isSeparator (c : Char) : Bool :=
  c = ' ' || c = '\t' || c = '\n' || c = '\r'

/-- The characters numbers are made of. -/
def isNumberChar (c : Char) : Bool :=
  Decimal.isDigit c || c = '-' || c = '+' || c = '.' || c = 'e' || c = 'E'

/-- The first token of a text that does not begin with a separator, and what follows it. -/
def token? : List Char → Option (Token × List Char)
  | '[' :: rest => some (.openArray, rest)
  | ']' :: rest => some (.closeArray, rest)
  | '\x7b' :: rest => some (.openObject, rest)
  | '\x7d' :: rest => some (.closeObject, rest)
  | ',' :: rest => some (.comma, rest)
  | ':' :: rest => some (.colon, rest)
  | '"' :: rest => (readString? rest).map fun (s, rest) => (.string s, rest)
  | 't' :: 'r' :: 'u' :: 'e' :: rest => some (.word (.bool true), rest)
  | 'f' :: 'a' :: 'l' :: 's' :: 'e' :: rest => some (.word (.bool false), rest)
  | 'n' :: 'u' :: 'l' :: 'l' :: rest => some (.word .null, rest)
  | text =>
    (Number.read? (text.takeWhile isNumberChar)).map fun n =>
      (.word (ofNumber n), text.dropWhile isNumberChar)

/-- The tokens of a text after those found before, last first. Every token takes at least one
character, so as many steps as there are characters are enough. -/
def tokensFrom? : (fuel : Nat) → List Token → List Char → Option (List Token)
  | _, done, [] => some done.reverse
  | 0, _, _ :: _ => none
  | fuel + 1, done, c :: text =>
    if isSeparator c then tokensFrom? fuel done text
    else
      match token? (c :: text) with
      | some (token, rest) => tokensFrom? fuel (token :: done) rest
      | none => none

/-- The tokens of a text. -/
def tokens? (text : List Char) : Option (List Token) :=
  tokensFrom? text.length [] text

end ContentTree.Json
