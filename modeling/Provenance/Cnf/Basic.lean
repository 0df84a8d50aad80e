/-!
# Formulas in conjunctive normal form

A formula is a number of variables and a list of clauses, each a list of literals. Variables are
counted from zero here and from one in DIMACS text, where a negative literal has a minus sign.
-/

namespace Provenance

/-- A variable or its negation. -/
structure Literal where
  /-- The variable, counted from zero. -/
  index : Nat
  positive : Bool
  deriving DecidableEq, Repr

namespace Literal

/-- The literal that a variable is true. -/
def pos (index : Nat) : Literal := ⟨index, true⟩

/-- The literal that a variable is false. -/
def neg (index : Nat) : Literal := ⟨index, false⟩

/-- The number of a literal in DIMACS text. -/
def toDimacs (l : Literal) : Int := if l.positive then l.index + 1 else -(l.index + 1 : Int)

/-- The literal of a number other than zero. -/
def ofDimacs (number : Int) : Literal := ⟨number.natAbs - 1, 0 < number⟩

/-- Whether an assignment makes the literal true. -/
def holds (l : Literal) (assignment : Nat → Bool) : Bool := assignment l.index == l.positive

theorem ofDimacs_toDimacs (l : Literal) : ofDimacs l.toDimacs = l := by
  rcases l with ⟨index, _ | _⟩ <;> simp [ofDimacs, toDimacs] <;> omega

end Literal

/-- A disjunction of literals. -/
abbrev Clause := List Literal

/-- A conjunction of clauses over a number of variables. -/
structure Cnf where
  varCount : Nat
  clauses : List Clause
  deriving DecidableEq, Repr

namespace Cnf

/-- The formula of some clauses over at least `least` variables, and over all that they mention. -/
def ofClauses (least : Nat) (clauses : List Clause) : Cnf where
  varCount := clauses.flatten.foldl (fun count l => max count (l.index + 1)) least
  clauses := clauses

/-- Whether an assignment satisfies every clause. -/
def holds (formula : Cnf) (assignment : Nat → Bool) : Bool :=
  formula.clauses.all fun clause => clause.any (·.holds assignment)

/-- A clause on one line, closed by a zero. -/
def clauseLine (clause : Clause) : String :=
  String.join (clause.map fun l => toString l.toDimacs ++ " ") ++ "0\n"

/-- The formula as DIMACS text. -/
def dimacs (formula : Cnf) : String :=
  "p cnf " ++ toString formula.varCount ++ " " ++ toString formula.clauses.length ++ "\n" ++
    String.join (formula.clauses.map clauseLine)

end Cnf

end Provenance
