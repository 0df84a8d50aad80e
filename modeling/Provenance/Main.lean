import Provenance.CommandLine.Programs

/-!
# Entry point

The program evaluates a gate of the circuit in a file. When the first argument is `cnf` or `tree`
the circuit is written as a formula or as a tree decomposition; a file of such a name is given with
its directory.
-/

open Provenance.CommandLine

/-- The files and streams of the system. -/
def systemHost : Host IO where
  read path := do
    try return some (← IO.FS.readBinFile path)
    catch _ => return none
  create path := do
    try
      IO.FS.writeFile path ""
      return true
    catch _ => return false
  write path text := do
    try
      IO.FS.writeFile path text
      return true
    catch _ => return false
  print text := do (← IO.getStdout).putStr text
  report text := do (← IO.getStderr).putStr text

def main (arguments : List String) : IO UInt32 := do
  let ending ← match arguments with
    | "cnf" :: rest => Encoding.run systemHost "provenance cnf" rest
    | "tree" :: rest => Decomposing.run systemHost "provenance tree" rest
    | arguments => do
      let seed := (← IO.monoNanosNow).toUInt64
      Evaluation.run systemHost "provenance" seed arguments
  return ending.code
