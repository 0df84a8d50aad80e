import Provenance.Failure

/-!
# Hosts

What a program needs from the world around it: files and two streams of text. Programs are written
against a host in any monad, so they can be run on a real system or on a table of files.
-/

namespace Provenance.CommandLine

/-- Files and streams. -/
structure Host (m : Type → Type) where
  /-- The content of a file that can be read. -/
  read : String → m (Option ByteArray)
  /-- Makes an empty file; says whether that was possible. -/
  create : String → m Bool
  /-- Writes the content of a file that was made; says whether that was possible. -/
  write : String → String → m Bool
  /-- Prints on the standard output. -/
  print : String → m Unit
  /-- Prints on the standard error. -/
  report : String → m Unit

/-- How a program ends. -/
inductive Ending where
  | done
  | failed
  /-- The computation was stopped at its limit. -/
  | interrupted
  deriving DecidableEq, Repr

namespace Ending

/-- The exit code. -/
def code : Ending → UInt32
  | .done => 0
  | .failed => 1
  | .interrupted => 42

/-- The ending after a failure. -/
def after (failure : Failure) : Ending :=
  match failure.cause with
  | .interrupted .. => .interrupted
  | _ => .failed

end Ending

variable {m : Type → Type} [Monad m]

/-- Runs work to its ending; a failure is reported. -/
def runWork (host : Host m) (work : ExceptT Failure m Unit) : m Ending := do
  match ← work.run with
  | .ok () => pure .done
  | .error failure =>
    host.report ("Error: " ++ failure.message ++ "\n")
    pure (.after failure)

/-- Work that succeeds when it says so. -/
def demand (cause : Cause) (work : m Bool) : ExceptT Failure m Unit :=
  .mk do return Outcome.require (← work) cause

/-- Puts failures of work into a context. -/
def inContext {β : Type} (context : Context) (work : ExceptT Failure m β) : ExceptT Failure m β :=
  .mk do return Outcome.within context (← work.run)

end Provenance.CommandLine
