/-!
# Drawings in the dot language

A directed graph with labelled nodes, one line per node and per edge.
-/

namespace Provenance.Dot

/-- The written form of one character of a label; a line feed is a break that aligns to the left. -/
def escape (c : Char) : List Char :=
  if c == '"' || c == '\\' then ['\\', c]
  else if c == '\n' then ['\\', 'l']
  else [c]

/-- A label in quotes. -/
def quote (label : String) : String := String.ofList ('"' :: label.toList.flatMap escape ++ ['"'])

/-- The drawing of nodes, given by their labels in order, and of edges between their positions. -/
def render (labels : List String) (edges : List (Nat × Nat)) : String :=
  let node (label : String) (index : Nat) : String :=
    "    " ++ toString index ++ " [ label = " ++ quote label ++ " ]\n"
  let edge (source target : Nat) : String :=
    "    " ++ toString source ++ " -> " ++ toString target ++ " [ ]\n"
  "digraph \x7b\n" ++ String.join (labels.zipIdx.map fun (label, index) => node label index) ++
    String.join (edges.map fun (source, target) => edge source target) ++ "\x7d\n"

end Provenance.Dot
