import Provenance.Network
import Provenance.Proofs.Naming
import Provenance.Proofs.Permitted

/-!
# Names in a network under construction

A network is made from the empty one by single changes (`Edit`, `edited`).  After each of them names and gates
are paired and a name belongs to a gate in the table (`Registered`): a new gate has no name, a wire touches
none, and a name that is given or taken away is removed from both maps first.

Main statement: however a network was made, a gate has a name exactly if the name leads to the gate, looking up
a name in use adds nothing, and giving a name changes its former owner and the former name of its new one and
nothing else (`edited_names`).
-/

namespace Provenance.Network

variable {κ : Type} {n : Network κ}

/-- Names are paired with gates of the table. -/
structure Registered (n : Network κ) : Prop where
  paired : n.naming.Paired
  named : ∀ name gate, n.find? name = some gate → gate < n.size

/-! ## What an operation keeps -/

theorem registered_empty : (empty : Network κ).Registered where
  paired := Naming.paired_empty
  named name gate found := by
    have unnamed : (empty : Network κ).find? name = none := by simp [find?, empty, Naming.owner?, Naming.empty]
    rw [unnamed] at found
    cases found

namespace Registered

theorem addGate (registered : n.Registered) (kind : κ) : (n.addGate kind).Registered where
  paired := registered.paired
  named name gate found := by
    rw [size_addGate]
    exact Nat.lt_succ_of_lt (registered.named name gate found)

theorem setName (registered : n.Registered) {gate : Nat} (small : gate < n.size) (name : String) :
    (n.setName gate name).Registered where
  paired := registered.paired.assign gate name
  named other owner found := by
    have found : (n.naming.assign gate name).owner? other = some owner := found
    rw [Naming.owner?_assign] at found
    split at found
    · exact Option.some.inj found ▸ small
    · split at found
      · cases found
      · exact registered.named other owner found

theorem dropName (registered : n.Registered) (gate : Nat) : (n.dropName gate).Registered where
  paired := registered.paired.release gate
  named other owner found := by
    have found : (n.naming.release gate).owner? other = some owner := found
    rw [Naming.owner?_release] at found
    split at found
    · cases found
    · exact registered.named other owner found

end Registered

variable [Inhabited κ]

/-- A name in use leads to its owner, and nothing is added. -/
theorem intern_of_found {name : String} {gate : Nat} (found : n.find? name = some gate) :
    n.intern name = (gate, n) := by
  unfold Network.intern
  rw [found]

/-- A name that is looked up for the first time is for the new gate. -/
theorem Registered.intern (registered : n.Registered) (name : String) : (n.intern name).2.Registered := by
  cases found : n.find? name with
  | some gate =>
    rw [intern_of_found found]
    exact registered
  | none =>
    unfold Network.intern
    rw [found]
    refine (registered.addGate default).setName ?_ name
    rw [size_addGate]
    exact Nat.lt_succ_self _

/-! ## Changes one after the other -/

/-- A change of a network. -/
inductive Edit (κ : Type) where
  /-- A gate without name is added. -/
  | addGate (kind : κ)
  /-- A name is looked up, which may be new. -/
  | intern (name : String)
  | setName (gate : Nat) (name : String)
  | dropName (gate : Nat)
  | addWire (gate child : Nat)

/-- The network after a change. -/
def Edit.apply (n : Network κ) : Edit κ → Network κ
  | .addGate kind => n.addGate kind
  | .intern name => (n.intern name).2
  | .setName gate name => n.setName gate name
  | .dropName gate => n.dropName gate
  | .addWire gate child => n.addWire gate child

/-- A name is given to a gate that is there, and a wire starts from one; the wire may lead to a gate that comes
later. -/
def Edit.Allowed (n : Network κ) : Edit κ → Prop
  | .setName gate _ | .addWire gate _ => gate < n.size
  | .addGate _ | .intern _ | .dropName _ => True

/-- The network after some changes. -/
def edited (n : Network κ) (edits : List (Edit κ)) : Network κ := edits.foldl Edit.apply n

/-- Whether each change is allowed when its turn comes. -/
def Editable (n : Network κ) (edits : List (Edit κ)) : Prop := Permitted Edit.apply Edit.Allowed n edits

namespace Registered

theorem apply (registered : n.Registered) {edit : Edit κ} (allowed : edit.Allowed n) :
    (edit.apply n).Registered := by
  cases edit with
  | addGate kind => exact registered.addGate kind
  | intern name => exact registered.intern name
  | setName gate name => exact registered.setName allowed name
  | dropName gate => exact registered.dropName gate
  | addWire gate child => exact ⟨registered.paired, registered.named⟩

theorem edited (registered : n.Registered) {edits : List (Edit κ)} (allowed : n.Editable edits) :
    (n.edited edits).Registered :=
  Permitted.foldl (fun _ _ registered => registered.apply) allowed registered

end Registered

/-- In a network that was made from the empty one, a gate has a name exactly if the name leads to the gate, and
then the gate is in the table.  A name in use leads to its owner, and no gate is added for it.  A gate that is
given a name, be it new, its own or that of another gate, has this name from then on; its former name is free,
a former owner has no name, and all else is as it was. -/
theorem edited_names {edits : List (Edit κ)} (allowed : Editable empty edits) {n : Network κ}
    (made : edited empty edits = n) :
    (∀ name gate, n.find? name = some gate ↔ n.name? gate = some name) ∧
    (∀ gate name, n.name? gate = some name → gate < n.size) ∧
    (∀ name gate, n.find? name = some gate → n.intern name = (gate, n)) ∧
    ∀ gate < n.size, ∀ name,
      (∀ other, (n.setName gate name).find? other =
        if other = name then some gate else if n.name? gate = some other then none else n.find? other) ∧
      ∀ other, (n.setName gate name).name? other =
        if other = gate then some name else if n.name? other = some name then none else n.name? other := by
  subst made
  have registered := registered_empty.edited allowed
  refine ⟨registered.paired, fun gate name named => ?_, fun name gate => intern_of_found,
    fun gate small name => ⟨?_, ?_⟩⟩
  · exact registered.named name gate ((registered.paired name gate).2 named)
  · exact fun other => Naming.owner?_assign _ gate name other
  · exact fun other => Naming.name?_assign registered.paired gate other name

/-- Two gates of a name, one after the other; the second one gets another name twice, and the first name goes to
a third gate, which loses it again. -/
def renamed : List (Edit Kind) :=
  [.intern "x", .addGate .or, .setName 1 "x", .setName 1 "y", .setName 1 "y", .intern "x", .addWire 0 2,
    .dropName 2]

theorem editable_renamed : Editable empty renamed := by
  refine ⟨trivial, trivial, ?taken, ?other, ?again, trivial, ?wire, trivial, trivial⟩
  case taken | other | again | wire =>
    show _ < Network.size _
    decide +kernel

/-- The second gate is left with its name, and loses it when the third one is given it. -/
theorem edited_names_renamed :
    Editable empty renamed ∧ (edited empty renamed).size = 3 ∧ (edited empty renamed).find? "y" = some 1 ∧
    (edited empty renamed).intern "y" = (1, edited empty renamed) ∧ 1 < (edited empty renamed).size ∧
    ((edited empty renamed).setName 2 "y").find? "y" = some 2 ∧
    ((edited empty renamed).setName 2 "y").name? 1 = none := by
  obtain ⟨paired, inside, kept, moved⟩ := edited_names editable_renamed rfl
  have found : (edited empty renamed).find? "y" = some 1 := by decide +kernel
  have named := (paired "y" 1).1 found
  obtain ⟨owners, names⟩ := moved 2 (by decide +kernel) "y"
  refine ⟨editable_renamed, by decide +kernel, found, kept "y" 1 found, inside 1 "y" named, ?_, ?_⟩
  · rw [owners, if_pos rfl]
  · rw [names, if_neg (by decide), if_pos named]

end Provenance.Network
