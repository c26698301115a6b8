import ContentTree.Text.Hexadecimal
import ContentTree.Text.Unmarked

/-!
# Quoted texts

A text between double quotes for a reader at a terminal. Quotes, backslashes and the common
controls are escaped with a letter; a character without a mark of its own is shown by its code
point in lower case hexadecimal.

## Main definitions

* `quote`: the quoted form of a text.
-/

namespace ContentTree.Text

/-- How one character is written inside quotes. -/
def quoteChar (c : Char) : List Char :=
  match c with
  | '\x00' => ['\\', '0']
  | '\t' => ['\\', 't']
  | '\r' => ['\\', 'r']
  | '\n' => ['\\', 'n']
  | '"' => ['\\', '"']
  | '\\' => ['\\', '\\']
  | c => if isUnmarked c then "\\u\x7b".toList ++ hex c.toNat ++ ['\x7d'] else [c]

/-- A text between double quotes, with escapes. -/
def quote (s : String) : String :=
  String.ofList ('"' :: s.toList.flatMap quoteChar ++ ['"'])

end ContentTree.Text
