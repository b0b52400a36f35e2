import LayeredConfig.Text

/-!
# Options of a command

The arguments of a command are options, which begin with two dashes, and what is left over. An
option without a flag's meaning takes a value: after an equals sign, or else the next argument,
which must then not look like an option. After `--` no argument is an option.

## Main definitions

* `CommandLine.OptionRule`, `CommandLine.Rules`: what a command understands.
* `CommandLine.Rules.read`: the arguments of a command.
-/

namespace LayeredConfig.CommandLine

/-- How often an option may be given, and whether it takes a value. -/
inductive Arity
  | flag
  | once
  | many
  deriving DecidableEq, Repr

/-- An option. -/
structure OptionRule where
  /-- The name after the dashes. -/
  name : String
  arity : Arity
  /-- Which values it takes. -/
  allows : String → Bool := fun _ => true

/-- What a command understands. -/
structure Rules where
  /-- The name under which the command shows its version. -/
  title : String
  options : List OptionRule
  /-- The commands that may follow. -/
  commands : List String := []
  /-- How many arguments may be left over. -/
  operands : Nat := 0

/-- Why the arguments do not lead to a command. -/
inductive Stop
  | rejected
  /-- The version is asked for. -/
  | version (title : String)
  deriving DecidableEq, Repr

/-- The arguments of a command. -/
structure Given where
  /-- The options with their values, in order. -/
  options : List (String × String) := []
  operands : List String := []
  /-- The command that follows, with its arguments. -/
  command : Option (String × List String) := none
  deriving DecidableEq, Repr

namespace Given

/-- The values of an option, in order. -/
def all (name : String) (given : Given) : List String :=
  (given.options.filter fun option => option.1 = name).map Prod.snd

/-- The value of an option. -/
def value? (name : String) (given : Given) : Option String := (given.all name).getLast?

/-- An option is given. -/
def has (name : String) (given : Given) : Bool := !(given.all name).isEmpty

end Given

/-- What an argument looks like. -/
inductive Shape
  | long (name : String) (value : Option String)
  | short (letter : Char)
  /-- The argument `--`. -/
  | divider
  | plain
  deriving DecidableEq, Repr

/-- The shape of an argument. -/
def shape (argument : String) : Shape :=
  match argument.toList with
  | ['-', '-'] => .divider
  | '-' :: '-' :: body =>
    match Text.cutFirst '=' body with
    | some (name, value) => .long (String.ofList name) (some (String.ofList value))
    | none => .long (String.ofList body) none
  | '-' :: letter :: _ => .short letter
  | _ => .plain

namespace Rules

/-- The arguments with one more option. -/
def give (option : OptionRule) (value : String) (given : Given) : Except Stop Given :=
  if !option.allows value || (option.arity != .many && given.has option.name) then
    .error .rejected
  else .ok { given with options := given.options ++ [(option.name, value)] }

/-- The arguments with one more that is no option: a command, or one that is left over. -/
def giveOperand (rules : Rules) (argument : String) (given : Given) : Except Stop Given :=
  if given.operands.length < rules.operands then
    .ok { given with operands := given.operands ++ [argument] }
  else .error .rejected

/-- Reads arguments after those in `given`: `pending` is the option whose value comes next, and
after `isOver` no option follows. -/
def readFrom (rules : Rules) (pending : Option OptionRule) (isOver : Bool) (given : Given) :
    List String → Except Stop Given
  | [] => if pending.isSome then .error .rejected else .ok given
  | argument :: rest =>
    match pending with
    | some option =>
      if shape argument = .plain then do
        rules.readFrom none isOver (← give option argument given) rest
      else .error .rejected
    | none =>
      if isOver then do
        rules.readFrom none true (← rules.giveOperand argument given) rest
      else if rules.commands.contains argument then
        .ok { given with command := some (argument, rest) }
      else
        match shape argument with
        | .divider => rules.readFrom none true given rest
        | .short letter => .error (if letter = 'V' then .version rules.title else .rejected)
        | .plain => do rules.readFrom none false (← rules.giveOperand argument given) rest
        | .long name value =>
          match rules.options.find? fun option => option.name = name, value with
          | some option, some value =>
            if option.arity = .flag then .error .rejected
            else do rules.readFrom none false (← give option value given) rest
          | some option, none =>
            if option.arity = .flag then do
              rules.readFrom none false (← give option "" given) rest
            else rules.readFrom (some option) false given rest
          | none, none =>
            .error (if name = "version" then .version rules.title else .rejected)
          | none, some _ => .error .rejected

/-- Reads the arguments of a command. -/
def read (rules : Rules) (arguments : List String) : Except Stop Given :=
  rules.readFrom none false {} arguments

end Rules

end LayeredConfig.CommandLine
