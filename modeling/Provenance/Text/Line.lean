/-!
# Lines

A line ends before a line feed; a carriage return just before the line feed belongs to the end.
Text after the last line feed is a line when it is not empty.
-/

namespace Provenance.Text

variable {α : Type}

/-- Cuts a list before each `separator`, which is dropped. The last piece is what follows the last
separator, empty or not; `current` is the piece already begun, last element first. -/
def cutFrom [BEq α] (separator : α) (current : List α) : List α → List (List α)
  | [] => [current.reverse]
  | a :: rest =>
    if a == separator then current.reverse :: cutFrom separator [] rest
    else cutFrom separator (a :: current) rest

/-- Drops one `ending` at the end. -/
def dropEnding [BEq α] (ending : α) (line : List α) : List α :=
  match line.reverse with
  | last :: rest => if last == ending then rest.reverse else line
  | [] => []

/-- The lines of a list of characters or bytes. -/
def linesOf [BEq α] (feed ret : α) (text : List α) : List (List α) :=
  let pieces := cutFrom feed [] text
  let ended := pieces.dropLast.map (dropEnding ret)
  match pieces.getLast? with
  | some (a :: rest) => ended ++ [a :: rest]
  | _ => ended

/-- The lines of a text. -/
def lines (text : String) : List (List Char) := linesOf '\n' '\r' text.toList

/-- The lines of a sequence of bytes. -/
def byteLines (bytes : ByteArray) : List (List UInt8) := linesOf 10 13 bytes.toList

/-- The last `count` lines, joined by line feeds. -/
def lastLines (text : String) (count : Nat) : String :=
  let all := lines text
  "\n".intercalate ((all.drop (all.length - count)).map String.ofList)

end Provenance.Text
