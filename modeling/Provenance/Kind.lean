/-!
# Kinds of gates
-/

namespace Provenance

/-- What a gate of a Boolean circuit computes. -/
inductive Kind where
  /-- Mentioned and not defined yet. -/
  | undetermined
  /-- A Boolean input, true with its probability. -/
  | input
  /-- One alternative of a categorical variable: of those that share a key at most one is true. -/
  | alternative
  /-- A conjunction, true when empty. -/
  | and
  /-- A disjunction, false when empty. -/
  | or
  /-- The negation of the only child. -/
  | not
  deriving DecidableEq, Repr, Inhabited

namespace Kind

/-- All kinds. -/
def all : List Kind := [.undetermined, .input, .alternative, .and, .or, .not]

/-- The word for a kind in circuit files. -/
def word : Kind → String
  | .undetermined => "UNDETERMINED"
  | .input => "IN"
  | .alternative => "MULIN"
  | .and => "AND"
  | .or => "OR"
  | .not => "NOT"

/-- The word for a kind in drawings and messages. -/
def label : Kind → String
  | .undetermined => "Undetermined"
  | .input => "In"
  | .alternative => "Mulin"
  | .and => "And"
  | .or => "Or"
  | .not => "Not"

/-- The kind that a word of a circuit file stands for. -/
def ofWord? (text : String) : Option Kind := all.find? (·.word == text)

theorem ofWord?_word (kind : Kind) : ofWord? kind.word = some kind := by
  cases kind <;> decide

end Kind

end Provenance
