import ContentTree.Text.Search

/-!
# Arguments

Reading the arguments of a command. An option is a switch, or it takes a value, which stands in the
same argument or in the next one. Everything else is an operand. Arguments are looked at from left
to right, and the first fault or the first request for help ends the reading.

## Main definitions

* `OptionForm`, `Form`: what a command accepts.
* `Item`: what one argument says.
* `Form.scan`: the items of a list of arguments.
* `Given`: options and operands that a form accepts.
* `Form.read`: what was given, or why the reading ended.
-/

namespace ContentTree.Command

/-- An option of a command. -/
structure OptionForm where
  name : String
  letter : Option Char := none
  /-- Which values are fit, for an option that takes one. -/
  value : Option (String → Bool) := none
  /-- Whether the option may be given again. -/
  repeats : Bool := false

/-- What a command accepts. -/
structure Form where
  options : List OptionForm
  /-- The names of the operands, each of which is needed. -/
  operands : List String := []

/-- What is wrong with the arguments of a command. -/
inductive Misuse
  | unknownOption (text : String)
  | missingValue (name : String)
  | needlessValue (name : String)
  | unfitValue (name value : String)
  | repeated (name : String)
  | needlessOperand (text : String)
  | missingOperand (name : String)
  | unknownCommand (text : String)
  | missingCommand
deriving DecidableEq

/-- The wording of a misuse. -/
def Misuse.message : Misuse → String
  | unknownOption text => s!"unknown option '{text}'"
  | missingValue name => s!"--{name} needs a value"
  | needlessValue name => s!"--{name} takes no value"
  | unfitValue name value => s!"'{value}' is no value for {name}"
  | repeated name => s!"--{name} is given twice"
  | needlessOperand text => s!"unexpected argument '{text}'"
  | missingOperand name => s!"{name} is missing"
  | unknownCommand text => s!"unknown command '{text}'"
  | missingCommand => "a command is missing"

/-- Why a command does not run. -/
inductive Halt
  | help
  | version
  | misuse (cause : Misuse)
deriving DecidableEq

/-- What one argument says. -/
inductive Item
  | switch (option : OptionForm)
  | setting (option : OptionForm) (value : String)
  | operand (text : String)
  | fault (cause : Misuse)

/-- Whether an argument is an operand by its form. A dash alone is one. -/
def isOperand (arg : String) : Bool :=
  match arg.toList with
  | '-' :: _ :: _ => false
  | _ => true

namespace Form

/-- The option with a letter. -/
def withLetter? (f : Form) (c : Char) : Option OptionForm :=
  f.options.find? (·.letter = some c)

/-- The option with a name. -/
def withName? (f : Form) (name : String) : Option OptionForm :=
  f.options.find? (·.name = name)

/-- What letters behind one dash say, and the option whose value is still to come. Whatever follows
the letter of an option with a value is the value, and it may begin with an equals sign. -/
def letters (f : Form) : List Char → List Item × Option OptionForm
  | [] => ([], none)
  | c :: rest =>
    match f.withLetter? c with
    | none => ([.fault (.unknownOption (String.ofList ['-', c]))], none)
    | some o =>
      if o.value.isNone then
        let (items, pending) := f.letters rest
        (.switch o :: items, pending)
      else
        match rest with
        | [] => ([], some o)
        | '=' :: value => ([.setting o (String.ofList value)], none)
        | value => ([.setting o (String.ofList value)], none)

/-- What a name behind two dashes says, and the option whose value is still to come. -/
def long (f : Form) (text : List Char) : List Item × Option OptionForm :=
  let (name, value) := match Text.cut? ['='] text with
    | some (name, value) => (name, some (String.ofList value))
    | none => (text, none)
  match f.withName? (String.ofList name) with
  | none => ([.fault (.unknownOption ("--" ++ String.ofList text))], none)
  | some o =>
    match o.value, value with
    | none, none => ([.switch o], none)
    | none, some _ => ([.fault (.needlessValue o.name)], none)
    | some _, none => ([], some o)
    | some _, some value => ([.setting o value], none)

/-- What an argument says, and the option whose value is still to come. -/
def argument (f : Form) (arg : String) : List Item × Option OptionForm :=
  match arg.toList with
  | '-' :: '-' :: text => f.long text
  | '-' :: c :: rest => f.letters (c :: rest)
  | _ => ([.operand arg], none)

/-- The items of a list of arguments. After two dashes alone, only operands follow. -/
def scan (f : Form) : List String → List Item
  | [] => []
  | arg :: rest =>
    if arg = "--" then rest.map .operand
    else
      match f.argument arg with
      | (items, none) => items ++ f.scan rest
      | (items, some o) =>
        match rest with
        | [] => items ++ [.fault (.missingValue o.name)]
        | value :: rest =>
          if isOperand value then items ++ .setting o value :: f.scan rest
          else items ++ [.fault (.missingValue o.name)]

end Form

/-- Options and operands in the order they were given. -/
structure Given where
  switches : List String := []
  settings : List (String × String) := []
  operands : List String := []

namespace Given

/-- Whether an option was given. -/
def has (g : Given) (name : String) : Bool :=
  g.switches.contains name || (g.settings.lookup name).isSome

/-- The value of an option. -/
def value? (g : Given) (name : String) : Option String :=
  g.settings.lookup name

/-- All values of an option. -/
def values (g : Given) (name : String) : List String :=
  (g.settings.filter (·.1 = name)).map Prod.snd

/-- Adds what one argument says, if the form accepts it. -/
def add (f : Form) (g : Given) : Item → Except Halt Given
  | .fault cause => .error (.misuse cause)
  | .switch o =>
    if o.name = "help" then .error .help
    else if o.name = "version" then .error .version
    else if g.has o.name then .error (.misuse (.repeated o.name))
    else .ok { g with switches := g.switches ++ [o.name] }
  | .setting o value =>
    if !o.value.any (· value) then .error (.misuse (.unfitValue o.name value))
    else if g.has o.name && !o.repeats then .error (.misuse (.repeated o.name))
    else .ok { g with settings := g.settings ++ [(o.name, value)] }
  | .operand text =>
    match f.operands[g.operands.length]? with
    | none => .error (.misuse (.needlessOperand text))
    | some name =>
      if text.isEmpty then .error (.misuse (.unfitValue name text))
      else .ok { g with operands := g.operands ++ [text] }

/-- Adds what several arguments say. -/
def addAll (f : Form) (g : Given) : List Item → Except Halt Given
  | [] => .ok g
  | item :: items => do (← g.add f item).addAll f items

end Given

/-- What the arguments give, with every operand present. -/
def Form.read (f : Form) (args : List String) : Except Halt Given := do
  let g ← Given.addAll f {} (f.scan args)
  match f.operands[g.operands.length]? with
  | some name => throw (.misuse (.missingOperand name))
  | none => return g

end ContentTree.Command
