import Provenance.Failure

/-!
# Arguments of a command line

A command line has positional arguments, flags and options with a value. An option is written with
its long name behind two dashes or with its short name behind one; short names may stand together.
The value of an option stands behind an equals sign, or behind a short name at once, or is the next
argument. An argument that starts with a dash is no value, unless it is a single dash, and after two
dashes alone all arguments are positional. Every command line has two more flags, for its help and
for its version; they end the reading at once.
-/

namespace Provenance.CommandLine

/-- A flag or an option. -/
structure OptionSpec where
  long : String
  short : Option Char
  takesValue : Bool
  /-- The value when none is given. -/
  default : Option String
  /-- What it does. -/
  help : String
  /-- What it does, at length. -/
  details : Option String

namespace OptionSpec

/-- A flag. -/
def flag (long : String) (short : Option Char) (help : String) : OptionSpec :=
  ⟨long, short, false, none, help, none⟩

/-- An option with a value. -/
def valued (long : String) (short : Option Char) (help : String) : OptionSpec :=
  ⟨long, short, true, none, help, none⟩

/-- An option with a value and a default for it. -/
def defaulted (long : String) (short : Option Char) (default help : String) : OptionSpec :=
  ⟨long, short, true, some default, help, none⟩

/-- The flag that asks for help. -/
def askHelp : OptionSpec := flag "help" (some 'h') "Prints help information"

/-- The flag that asks for the version. -/
def askVersion : OptionSpec := flag "version" (some 'V') "Prints version information"

end OptionSpec

/-- A positional argument. -/
structure Positional where
  name : String
  /-- What it is. -/
  help : String

/-- What a command line takes. -/
structure Interface where
  /-- What its program does. -/
  about : String
  /-- The positional arguments; all of them must be there. -/
  positionals : List Positional
  options : List OptionSpec
  /-- Pairs of options that exclude each other. -/
  conflicts : List (String × String)

/-- Why there is nothing to run. -/
inductive Stop where
  /-- Help is asked for, at length if its long name is written. -/
  | help (long : Bool)
  /-- The version is asked for. -/
  | version
  /-- The arguments are wrong. -/
  | wrong
  deriving DecidableEq, Repr

/-- What is given: the options in order, those with a value with their value, and the positional
arguments. -/
structure Given where
  options : List (String × Option String)
  positionals : List String

namespace Given

/-- Whether an option is given. -/
def has (given : Given) (long : String) : Bool := given.options.any (·.1 == long)

/-- How often an option is given. -/
def count (given : Given) (long : String) : Nat := (given.options.filter (·.1 == long)).length

/-- The value given for an option. -/
def value? (given : Given) (long : String) : Option String :=
  (given.options.filter (·.1 == long)).findSome? (·.2)

/-- One more occurrence of an option. -/
def addOption (given : Given) (long : String) (value : Option String) : Given :=
  { given with options := given.options ++ [(long, value)] }

/-- One more positional argument. -/
def addPositional (given : Given) (argument : String) : Given :=
  { given with positionals := given.positionals ++ [argument] }

end Given

/-- A reading under way. -/
structure Reading where
  given : Given
  /-- The option whose value comes next; it is not among the given ones yet. -/
  pending : Option OptionSpec
  /-- Whether only positional arguments follow. -/
  trailing : Bool

namespace Reading

/-- Nothing read. -/
def start : Reading := ⟨⟨[], []⟩, none, false⟩

/-- The reading when the option that waits gets no value. -/
def settle (r : Reading) : Reading :=
  match r.pending with
  | some spec => { r with given := r.given.addOption spec.long none, pending := none }
  | none => r

/-- Takes an option with its value, if the value is there; otherwise it waits. -/
def takeOption (r : Reading) (spec : OptionSpec) (value : Option String) : Reading :=
  if spec.takesValue && value.isNone then { r with pending := some spec }
  else { r with given := r.given.addOption spec.long (if spec.takesValue then value else none) }

end Reading

namespace Interface

/-- The option with a long name. -/
def long? (i : Interface) (name : String) : Option OptionSpec :=
  i.options.find? (·.long == name)

/-- The option with a short name. -/
def short? (i : Interface) (name : Char) : Option OptionSpec :=
  i.options.find? (·.short == some name)

/-- A value without the equals signs in front of it. -/
def valueOf (text : List Char) : String := String.ofList (text.dropWhile (· == '='))

/-- Takes a long name, perhaps with a value behind an equals sign. -/
def readLong (i : Interface) (r : Reading) (body : List Char) : Except Stop Reading :=
  let name := String.ofList (body.takeWhile (· != '='))
  let value := match body.dropWhile (· != '=') with
    | [] => none
    | _ :: value => some (valueOf value)
  match i.long? name with
  | some spec => .ok (r.takeOption spec value)
  | none =>
    .error <|
      if name == OptionSpec.askHelp.long then .help true
      else if name == OptionSpec.askVersion.long then .version
      else .wrong

/-- Takes short names that stand together; what stands behind an option is its value. -/
def readShort (i : Interface) (r : Reading) : List Char → Except Stop Reading
  | [] => .ok r
  | name :: rest =>
    match i.short? name with
    | some spec =>
      if spec.takesValue then
        .ok (r.takeOption spec (if rest.isEmpty then none else some (valueOf rest)))
      else readShort i (r.takeOption spec none) rest
    | none =>
      .error <|
        if OptionSpec.askHelp.short == some name then .help false
        else if OptionSpec.askVersion.short == some name then .version
        else .wrong

/-- Takes a positional argument. -/
def readPositional (i : Interface) (r : Reading) (argument : String) : Except Stop Reading :=
  if r.given.positionals.length < i.positionals.length then
    .ok { r with given := r.given.addPositional argument }
  else .error .wrong

/-- Takes an argument. -/
def readArgument (i : Interface) (r : Reading) (argument : String) : Except Stop Reading :=
  if r.trailing then i.readPositional r argument
  else
    match argument.toList, r.pending with
    | ['-', '-'], _ => .ok { r with trailing := true }
    | '-' :: '-' :: body, _ => i.readLong r.settle (body.dropWhile (· == '-'))
    | '-' :: letter :: rest, _ => i.readShort r.settle (letter :: rest)
    | _, some spec =>
      let r := { r with pending := none }
      .ok (r.takeOption spec (some argument))
    | _, none => i.readPositional r argument

/-- Whether an option that is given has what it needs: an option that takes a value has one, given
or by default. -/
def isSatisfied (i : Interface) (option : String × Option String) : Bool :=
  option.2.isSome ||
    (i.long? option.1).all fun spec => !spec.takesValue || spec.default.isSome

/-- Checks what was read as a whole: no option is repeated, no two that exclude each other are
there, no positional argument is missing, and every option has the value it needs. -/
def finish (i : Interface) (r : Reading) : Except Stop Given :=
  let given := r.settle.given
  let once := i.options.all fun spec => given.count spec.long ≤ 1
  let apart := i.conflicts.all fun (first, second) => !(given.has first && given.has second)
  let complete := given.positionals.length == i.positionals.length
  let satisfied := given.options.all i.isSatisfied
  if once && apart && complete && satisfied then .ok given else .error .wrong

/-- What the arguments give. -/
def read (i : Interface) (arguments : List String) : Except Stop Given := do
  let r ← arguments.foldlM i.readArgument Reading.start
  i.finish r

/-- The value of an option: the given one or the default. -/
def valueFor? (i : Interface) (given : Given) (long : String) : Option String :=
  (given.value? long).or ((i.long? long).bind (·.default))

end Interface

end Provenance.CommandLine
