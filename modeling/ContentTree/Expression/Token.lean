import ContentTree.Decimal.Reader

/-!
# Tokens of expressions

An expression is cut into words, strings, numbers and operators, always the longest that the text
allows. Blanks, tabs and line ends between tokens are passed over.

A string stands between two single or two double quotes. A backslash makes the character after it
part of the string, whatever it is, except for a line feed.

## Main definitions

* `Token`, `Token.text`: tokens, and tokens as shown in messages.
* `token?`: the first token of a text.
* `tokens`: all tokens, or the rest of the text from where there is none.
* `unquote`: the text that a string stands for.
-/

namespace ContentTree.Expression

/-- A token of an expression. -/
inductive Token
  | true
  | false
  | null
  | identifier (name : String)
  /-- A string with its quotes and backslashes. -/
  | string (literal : String)
  /-- A number as it is written. -/
  | number (digits : String)
  | openParenthesis
  | closeParenthesis
  | comma
  | dot
  | not
  | equal
  | notEqual
  | and
  | or
deriving DecidableEq

/-- A token as shown in messages. -/
def Token.text : Token → String
  | true => "true"
  | false => "false"
  | null => "null"
  | identifier name => "identifier '" ++ name ++ "'"
  | string literal => "string " ++ literal
  | number digits => "number " ++ digits
  | openParenthesis => "("
  | closeParenthesis => ")"
  | comma => ","
  | dot => "."
  | not => "!"
  | equal => "=="
  | notEqual => "!="
  | and => "&&"
  | or => "||"

/-- Whether a character separates tokens. -/
def isSeparator (c : Char) : Bool :=
  c = ' ' || c = '\t' || c = '\n' || c = '\r'

/-- Whether a word may begin with a character. -/
def isWordStart (c : Char) : Bool :=
  ('a' ≤ c && c ≤ 'z') || ('A' ≤ c && c ≤ 'Z') || c = '_'

/-- Whether a word may go on with a character. -/
def isWordChar (c : Char) : Bool :=
  isWordStart c || Decimal.isDigit c

/-- The token of a word. -/
def wordToken (word : String) : Token :=
  if word = "true" then .true
  else if word = "false" then .false
  else if word = "null" then .null
  else .identifier word

/-- The characters of a string after its opening quote, up to and with the closing one, and what
follows. -/
def stringRest? (quote : Char) : List Char → Option (List Char × List Char)
  | [] => none
  | [c] => if c = quote then some ([c], []) else none
  | c :: d :: text =>
    if c = quote then some ([c], d :: text)
    else if c = '\\' then
      if d = '\n' then none
      else (stringRest? quote text).map fun (inner, rest) => (c :: d :: inner, rest)
    else (stringRest? quote (d :: text)).map fun (inner, rest) => (c :: inner, rest)

/-- The digits of a number, with decimal places where a point and a digit follow, and what follows
the number. -/
def numberRest (text : List Char) : List Char × List Char :=
  let whole := text.takeWhile Decimal.isDigit
  match text.dropWhile Decimal.isDigit with
  | '.' :: rest =>
    let places := rest.takeWhile Decimal.isDigit
    if places.isEmpty then (whole, '.' :: rest)
    else (whole ++ '.' :: places, rest.dropWhile Decimal.isDigit)
  | rest => (whole, rest)

/-- The first token of a text that does not begin with a separator, and what follows it. -/
def token? : List Char → Option (Token × List Char)
  | '(' :: rest => some (.openParenthesis, rest)
  | ')' :: rest => some (.closeParenthesis, rest)
  | ',' :: rest => some (.comma, rest)
  | '.' :: rest => some (.dot, rest)
  | '!' :: '=' :: rest => some (.notEqual, rest)
  | '!' :: rest => some (.not, rest)
  | '=' :: '=' :: rest => some (.equal, rest)
  | '&' :: '&' :: rest => some (.and, rest)
  | '|' :: '|' :: rest => some (.or, rest)
  | '-' :: c :: text =>
    if Decimal.isDigit c then
      let (digits, rest) := numberRest (c :: text)
      some (.number (String.ofList ('-' :: digits)), rest)
    else none
  | c :: text =>
    if c = '"' || c = '\'' then
      (stringRest? c text).map fun (inner, rest) => (.string (String.ofList (c :: inner)), rest)
    else if Decimal.isDigit c then
      let (digits, rest) := numberRest (c :: text)
      some (.number (String.ofList digits), rest)
    else if isWordStart c then
      some (wordToken (String.ofList ((c :: text).takeWhile isWordChar)),
        (c :: text).dropWhile isWordChar)
    else none
  | [] => none

/-- The tokens of a text after those found before, last first, in at most as many steps as the fuel
allows. -/
def tokensFrom : (fuel : Nat) → List Token → List Char → Except (List Char) (List Token)
  | _, done, [] => .ok done.reverse
  | 0, _, c :: text => .error (c :: text)
  | fuel + 1, done, c :: text =>
    if isSeparator c then tokensFrom fuel done text
    else
      match token? (c :: text) with
      | some (token, rest) => tokensFrom fuel (token :: done) rest
      | none => .error (c :: text)

/-- The tokens of a text, or the rest of the text from where there is none. Every token takes at
least one character, so as many steps as there are characters are enough. -/
def tokens (text : List Char) : Except (List Char) (List Token) :=
  tokensFrom text.length [] text

/-- The characters that the inside of a string stands for. After a backslash, `n` and `t` stand for
a line feed and a tab, and any other character for itself. -/
def unescape : List Char → List Char
  | [] => []
  | [c] => if c = '\\' then [] else [c]
  | c :: d :: text =>
    if c = '\\' then
      (if d = 'n' then '\n' else if d = 't' then '\t' else d) :: unescape text
    else c :: unescape (d :: text)

/-- The text that a string with its quotes stands for. -/
def unquote (literal : String) : String :=
  String.ofList (unescape (literal.toList.drop 1).dropLast)

end ContentTree.Expression
