/-!
# Blank text

A text is blank when it holds nothing but white space in the sense of the Unicode property
`White_Space`. Names, keys and queries that are blank count as absent, and most texts read from
outside are trimmed of white space at both ends.

## Main definitions

* `Char.isBlank`: the property, as a table of code point ranges.
* `isBlank`, `trim`: blank texts, and a text without the white space around it.
-/

namespace ContentTree.Text

/-- The ranges of code points with the property `White_Space`. -/
def blankRanges : List (Nat × Nat) :=
  [(0x9, 0xd), (0x20, 0x20), (0x85, 0x85), (0xa0, 0xa0), (0x1680, 0x1680), (0x2000, 0x200a),
    (0x2028, 0x2029), (0x202f, 0x202f), (0x205f, 0x205f), (0x3000, 0x3000)]

/-- Whether a character is white space. -/
def isBlankChar (c : Char) : Bool :=
  blankRanges.any fun range => range.1 ≤ c.toNat && c.toNat ≤ range.2

/-- Whether a text holds nothing but white space. -/
def isBlank (s : String) : Bool :=
  s.toList.all isBlankChar

/-- The characters left when white space is dropped from both ends. -/
def trimChars (cs : List Char) : List Char :=
  ((cs.dropWhile isBlankChar).reverse.dropWhile isBlankChar).reverse

/-- A text without the white space at its ends. -/
def trim (s : String) : String :=
  String.ofList (trimChars s.toList)

/-- An optional text, absent also when it is blank. -/
def filled? (s : Option String) : Option String :=
  s.filter fun s => !isBlank s

/-- Lower case for the ASCII letters; every other character stays. -/
def lowerChar (c : Char) : Char :=
  if 'A' ≤ c ∧ c ≤ 'Z' then Char.ofNat (c.toNat + 32) else c

/-- A text with its ASCII letters in lower case. -/
def lower (s : String) : String :=
  String.ofList (s.toList.map lowerChar)

end ContentTree.Text
