import ContentTree.Command.Run

/-!
# The command line

Runs a command on the files of the machine. All that a command does is decided in
`ContentTree.Command`; here it is given the files and the two streams for text.
-/

namespace ContentTree.Command

/-- Looks at a path on the machine. -/
def readFile (path : String) : IO Finding := do
  try
    return .text (← IO.FS.readFile path)
  catch
    | .noFileOrDirectory .. => return .nothing
    | _ => return .unreadable

/-- Replaces the text of a file on the machine. -/
def writeFile (path text : String) : IO Bool := do
  try
    IO.FS.writeFile path text
    return true
  catch _ => return false

/-- The machine itself. -/
def machine : Host IO where
  read := readFile
  write := writeFile
  print text := IO.print text
  complain text := IO.eprint text

end ContentTree.Command

/-- Runs the command that the arguments name in the current directory. -/
def main (args : List String) : IO UInt32 := do
  ContentTree.Command.run ContentTree.Command.machine (toString (← IO.currentDir)) args
