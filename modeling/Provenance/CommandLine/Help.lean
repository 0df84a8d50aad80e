import Provenance.CommandLine.Arguments

/-!
# Help

What a command line tells about itself: the name and the version of its program, what it does, how
it is written, and a row for every flag, option and positional argument. A row has a label and a
text. In brief help the texts stand in a column behind the labels; in help at length, which is only
there if some option has more to say, each text stands below its label. Texts that would reach the
margin are wrapped at blanks.
-/

namespace Provenance.CommandLine

/-- The name under which a program is called, and its version. -/
structure Program where
  name : String
  version : String

/-- The line that names a program and its version. -/
def Program.title (program : Program) : String := program.name ++ " " ++ program.version

namespace Help

/-! ## Layout of texts -/

/-- The column that no line of a text reaches, where there is a blank to wrap at. -/
def margin : Nat := 120

/-- As many blanks. -/
def blanks (count : Nat) : String := String.ofList (List.replicate count ' ')

/-- The text, filled up with blanks to a width. -/
def fillUp (width : Nat) (text : String) : String := text ++ blanks (width - text.length)

/-- Joins words to lines, each as long as it can be within a width; `line` is the line begun. -/
def joinWords (width : Nat) (line : String) : List String → List String
  | [] => [line]
  | word :: rest =>
    if line.length + 1 + word.length ≤ width then joinWords width (line ++ " " ++ word) rest
    else line :: joinWords width word rest

/-- The lines of a text within a width; a longer word has a line of its own. -/
def wrap (width : Nat) (text : String) : List String :=
  (text.splitOn "\n").flatMap fun line =>
    match line.splitOn " " with
    | [] => []
    | word :: rest => joinWords width word rest

/-- The lines of a text that starts at a column. -/
def linesAt (column : Nat) (text : String) : List String :=
  if column + text.length < margin then text.splitOn "\n" else wrap (margin - column) text

/-! ## Rows -/

/-- A row of help. -/
structure Row where
  /-- What stands in front of the label: the short name, or the room for one. -/
  lead : String
  label : String
  help : String
  details : Option String

namespace Row

/-- The row of a flag or an option. -/
def ofOption (spec : OptionSpec) : Row where
  lead := match spec.short with
    | some short => String.ofList ['-', short, ',', ' ']
    | none => blanks 4
  label := "--" ++ spec.long ++ (if spec.takesValue then " <" ++ spec.long ++ ">" else "")
  help := spec.help ++ ((spec.default.map fun value => " [default: " ++ value ++ "]").getD "")
  details := spec.details

/-- The row of a positional argument. -/
def ofPositional (positional : Positional) : Row where
  lead := ""
  label := "<" ++ positional.name ++ ">"
  help := positional.help
  details := none

/-- What stands in front of the text of a row whose label is filled up to `width`. -/
def head (width : Nat) (row : Row) : String := blanks 4 ++ row.lead ++ fillUp (width + 4) row.label

/-- A row of brief help, the longest label having `width` characters. -/
def brief (width : Nat) (row : Row) : String :=
  let head := row.head width
  head ++ ("\n" ++ blanks head.length).intercalate (linesAt (width + 12) row.help)

/-- A row of help at length. -/
def long (width : Nat) (row : Row) : String :=
  let lines := linesAt 12 (row.details.getD row.help)
  let below := "\n" ++ blanks 12
  row.head width ++ below ++ below.intercalate lines ++ (if lines.length = 1 then "\n" else "")

end Row

/-- A section of rows. -/
def sectionText (long : Bool) (title : String) (rows : List Row) : String :=
  let width := rows.foldl (fun width row => max width row.label.length) 0
  title ++ ":\n" ++ "\n".intercalate (rows.map (if long then Row.long width else Row.brief width))

end Help

namespace Interface

/-- The flags and options by their long names, those for help and version among them. -/
def listed (i : Interface) : List OptionSpec :=
  (.askHelp :: .askVersion :: i.options).mergeSort fun a b => a.long ≤ b.long

/-- How the command line is written. -/
def usage (i : Interface) (program : Program) : String :=
  let flags := if i.options.any (!·.takesValue) then ["[FLAGS]"] else []
  let options := if i.options.any (·.takesValue) then ["[OPTIONS]"] else []
  let positionals := i.positionals.map fun positional => "<" ++ positional.name ++ ">"
  " ".intercalate (program.name :: flags ++ options ++ positionals)

/-- The help of the command line, brief or at length. -/
def helpText (i : Interface) (program : Program) (long : Bool) : String :=
  let long := long && i.options.any (·.details.isSome)
  let sections := [
    ("FLAGS", (i.listed.filter (!·.takesValue)).map Help.Row.ofOption),
    ("OPTIONS", (i.listed.filter (·.takesValue)).map Help.Row.ofOption),
    ("ARGS", i.positionals.map Help.Row.ofPositional)]
  let sections := sections.filter fun (_, rows) => !rows.isEmpty
  program.title ++ "\n" ++ i.about ++ "\n\nUSAGE:\n    " ++ i.usage program ++ "\n\n" ++
    "\n\n".intercalate (sections.map fun (title, rows) => Help.sectionText long title rows)

end Interface

end Provenance.CommandLine
