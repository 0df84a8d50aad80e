import Provenance.DDnnf.Probability
import Provenance.Proofs.Circuit.InStep
import Provenance.Proofs.Network.Checks

/-!
# Remembered probabilities

In a circuit without cycles the rules of the gates give each gate one outcome, a probability or a failure
(`Settles`, `exists_settles`).  A memo is right when what it remembers are such outcomes (`Right`).  Going
through gates with the children first then comes to the first gate whose outcome is a failure, whatever right
memo it starts from, and leaves a right memo (`remember_fst`, `Right.remember`).  So the evaluation of a gate
tells nothing about the memo (`probabilityOf_fst`).
-/

namespace Provenance.DDnnf

open Provenance.Circuit Provenance.Order Provenance.Network

variable {α : Type} [Scalar α] {c : Circuit α} {outcome : Nat → Outcome α} {memo : Std.TreeMap Nat α}
  {gate : Nat}

/-! ## Outcomes of gates -/

/-- The probability of a gate from the probabilities of its children, in order. -/
def finish (c : Circuit α) (gate : Nat) (children : List α) : Outcome α :=
  match c.kind gate with
  | .input => .ok (c.prob gate)
  | .and => .ok (Scalar.product children)
  | .or => .ok (Scalar.sum children)
  | .not => do
    let _ ← c.onlyChild gate
    .ok (Scalar.complement (Scalar.sum children))
  | .alternative => Outcome.fail (.multivalued gate)
  | .undetermined => Outcome.fail (.undetermined gate)

theorem gateProbability_eq_bind (c : Circuit α) (memo : Std.TreeMap Nat α) (gate : Nat) :
    gateProbability c memo gate =
      ((c.children gate).mapM fun child => Outcome.ofOption (.cyclic gate) memo[child]?) >>= finish c gate :=
  rfl

/-- Each gate has the outcome that its rule makes of the outcomes of its children; the first child that fails
decides. -/
def Settles (c : Circuit α) (outcome : Nat → Outcome α) : Prop :=
  ∀ gate, outcome gate = (c.children gate).mapM outcome >>= finish c gate

/-- The gates of a circuit without cycles have outcomes. -/
theorem exists_settles (acyclic : c.Acyclic) : ∃ outcome, Settles c outcome := by
  let outcome : Nat → Outcome α := acyclic.wellFounded.fix fun gate below =>
    ((c.children gate).attach.mapM fun child => below child.1 child.2) >>= finish c gate
  refine ⟨outcome, fun gate => ?_⟩
  show acyclic.wellFounded.fix _ gate = _
  rw [WellFounded.fix_eq, List.mapM_subtype (g := outcome) fun _ _ => rfl, List.unattach_attach]

namespace Settles

/-- The rules leave no choice. -/
theorem unique {outcome' : Nat → Outcome α} (settles : Settles c outcome) (settles' : Settles c outcome')
    (acyclic : c.Acyclic) (gate : Nat) : outcome' gate = outcome gate := by
  induction gate using acyclic.induction with
  | step gate ih =>
    have same : ∀ children : List Nat, (∀ child ∈ children, outcome' child = outcome child) →
        children.mapM outcome' = children.mapM outcome := by
      intro children
      induction children with
      | nil => exact fun _ => rfl
      | cons child children ih =>
        intro below
        obtain ⟨first, others⟩ := List.forall_mem_cons.1 below
        rw [List.mapM_cons, List.mapM_cons, first, ih others]
    rw [settles gate, settles' gate, same _ ih]

/-- The rule of a gate finds its outcome when those of the children are remembered. -/
theorem gateProbability_eq (settles : Settles c outcome)
    (below : ∀ child ∈ c.children gate, ∃ p, memo[child]? = some p ∧ outcome child = .ok p) :
    gateProbability c memo gate = outcome gate := by
  have same : ∀ children : List Nat,
      (∀ child ∈ children, ∃ p, memo[child]? = some p ∧ outcome child = .ok p) →
      (children.mapM fun child => Outcome.ofOption (.cyclic gate) memo[child]?) = children.mapM outcome := by
    intro children
    induction children with
    | nil => exact fun _ => rfl
    | cons child children ih =>
      intro below
      obtain ⟨⟨p, found, settled⟩, others⟩ := List.forall_mem_cons.1 below
      rw [List.mapM_cons, List.mapM_cons, ih others, found, settled]
      rfl
  rw [gateProbability_eq_bind, settles gate, same _ below]

end Settles

/-! ## Right memos -/

/-- What is remembered are the outcomes of gates. -/
def Right (c : Circuit α) (memo : Std.TreeMap Nat α) : Prop :=
  ∀ outcome, Settles c outcome → ∀ gate p, memo[gate]? = some p → outcome gate = .ok p

theorem right_empty (c : Circuit α) : Right c ∅ := fun _ _ _ _ found => by simp at found

/-- One more outcome may be remembered. -/
theorem Right.insert (right : Right c memo) {p : α}
    (new : ∀ outcome, Settles c outcome → outcome gate = .ok p) :
    Right c (memo.insert gate p) := by
  intro outcome settles other q found
  rw [Std.TreeMap.getElem?_insert] at found
  split at found
  · rename_i same
    obtain rfl := Nat.compare_eq_eq.1 same
    obtain rfl := Option.some.inj found
    exact new outcome settles
  · exact right outcome settles other q found

/-- Whether the outcome of a gate is a failure. -/
def check (outcome : Nat → Outcome α) (gate : Nat) : Outcome Unit := outcome gate >>= fun _ => .ok ()

omit [Scalar α] in
theorem check_eq_ok {p : α} (settled : outcome gate = .ok p) : check outcome gate = .ok () := by
  rw [check, settled]
  rfl

omit [Scalar α] in
/-- Checks of gates fail as their outcomes do. -/
theorem forM_check (outcome : Nat → Outcome α) (gates : List Nat) :
    forM gates (check outcome) = gates.mapM outcome >>= fun _ => .ok () := by
  induction gates with
  | nil => rfl
  | cons gate gates ih =>
    rw [List.forM_cons, List.mapM_cons, ih, check]
    cases outcome gate with
    | error failure => rfl
    | ok p =>
      show gates.mapM outcome >>= _ = (gates.mapM outcome >>= _) >>= _
      cases gates.mapM outcome <;> rfl

/-- The check of a gate begins with those of its children. -/
theorem Settles.recursive (settles : Settles c outcome) : Recursive c.children (check outcome) := by
  intro gate
  refine ⟨(c.children gate).mapM outcome >>= fun ps => finish c gate ps >>= fun _ => .ok (), ?_⟩
  rw [check, settles gate, forM_check]
  cases (c.children gate).mapM outcome <;> rfl

/-- What is remembered grows, and includes the gates of a list unless the list ends in a failure. -/
structure Remembers (c : Circuit α) (order : List Nat) (made : Outcome Unit × Std.TreeMap Nat α) : Prop where
  right : Right c made.2
  all : made.1 = .ok () → ∀ gate ∈ order, ∃ p, made.2[gate]? = some p

/-- Going through gates with the children first checks their outcomes, whatever right memo it starts from. -/
theorem remember_spec {order : List Nat} (first : ChildrenFirst c.children order)
    (before rest : List Nat) (split : order = before ++ rest) (right : Right c memo)
    (there : ∀ gate ∈ before, ∃ p, memo[gate]? = some p) :
    Remembers c order (remember c rest memo) ∧
      ∀ outcome, Settles c outcome → (remember c rest memo).1 = forM rest (check outcome) := by
  induction rest generalizing before memo with
  | nil =>
    rw [List.append_nil] at split
    exact ⟨⟨right, fun _ => split ▸ there⟩, fun _ _ => rfl⟩
  | cons gate rest ih =>
    have split' : order = (before ++ [gate]) ++ rest := by simp [split]
    rw [remember]
    by_cases remembered : memo.contains gate = true
    · rw [if_pos remembered]
      rw [Std.TreeMap.contains_eq_isSome_getElem?, Option.isSome_iff_exists] at remembered
      obtain ⟨p, found⟩ := remembered
      obtain ⟨remembers, same⟩ := ih (before ++ [gate]) split' right fun other member => by
        rcases List.mem_append.1 member with earlier | last
        · exact there other earlier
        · exact ⟨p, List.mem_singleton.1 last ▸ found⟩
      refine ⟨remembers, fun outcome settles => ?_⟩
      rw [same outcome settles, List.forM_cons, check, right outcome settles gate p found]
      rfl
    · rw [if_neg remembered]
      have computed : ∀ outcome, Settles c outcome → gateProbability c memo gate = outcome gate :=
        fun outcome settles => settles.gateProbability_eq fun child wire => by
          obtain ⟨p, found⟩ := there child (first before gate rest split child wire)
          exact ⟨p, found, right outcome settles child p found⟩
      cases value : gateProbability c memo gate with
      | error failure =>
        refine ⟨⟨right, fun impossible => nomatch impossible⟩, fun outcome settles => ?_⟩
        rw [List.forM_cons, check, ← computed outcome settles, value]
        rfl
      | ok p =>
        have settled : ∀ outcome, Settles c outcome → outcome gate = .ok p := fun outcome settles =>
          (computed outcome settles).symm.trans value
        obtain ⟨remembers, same⟩ := ih (before ++ [gate]) split' (right.insert settled) fun other member => by
          rw [Std.TreeMap.getElem?_insert]
          split
          · exact ⟨p, rfl⟩
          · rename_i different
            refine there other ((List.mem_append.1 member).resolve_right fun last => different ?_)
            exact Nat.compare_eq_eq.2 (List.mem_singleton.1 last).symm
        refine ⟨remembers, fun outcome settles => ?_⟩
        rw [List.forM_cons, check, settled outcome settles]
        exact same outcome settles

/-! ## Evaluation -/

variable {d : DDnnf α}

/-- What an evaluation remembers is right. -/
theorem right_probabilityOf (wellFormed : d.circuit.WellFormed) (inside : gate < d.circuit.size)
    (right : Right d.circuit d.memo) : Right d.circuit (d.probabilityOf gate).2.memo := by
  have below := wellFormed.inside inside
  have remembers := (remember_spec
    (childrenFirst_postOrder wellFormed.inStep.even below wellFormed.acyclic) []
    (d.circuit.postOrder gate) rfl
    right fun _ none => absurd none List.not_mem_nil).1
  rw [probabilityOf]
  split
  · exact right
  · exact remembers.right

/-- The outcome of an evaluation is that of its gate, whatever right memo the evaluation starts from. -/
theorem probabilityOf_fst (wellFormed : d.circuit.WellFormed) (inside : gate < d.circuit.size)
    (right : Right d.circuit d.memo) (settles : Settles d.circuit outcome) :
    (d.probabilityOf gate).1 = outcome gate := by
  have even := wellFormed.inStep.even
  have below := wellFormed.inside inside
  obtain ⟨remembers, same⟩ := remember_spec (childrenFirst_postOrder even below wellFormed.acyclic) []
    (d.circuit.postOrder gate) rfl right fun _ none => absurd none List.not_mem_nil
  have checked := (same outcome settles).trans
    (forM_postOrder even below wellFormed.acyclic settles.recursive)
  rw [probabilityOf]
  split
  · rename_i p found
    exact (right outcome settles gate p found).symm
  · generalize remember d.circuit (d.circuit.postOrder gate) d.memo = made at remembers checked
    obtain ⟨ended, memo⟩ := made
    subst checked
    cases settled : outcome gate with
    | error failure =>
      show (check outcome gate).bind _ = _
      rw [check, settled]
      rfl
    | ok p =>
      obtain ⟨q, found⟩ := remembers.all (check_eq_ok settled) gate
        ((mem_postOrder even below).2 (.refl gate))
      have same := (remembers.right outcome settles gate q found).symm.trans settled
      show (check outcome gate).bind (fun _ => Outcome.ofOption (.cyclic gate) memo[gate]?) = _
      rw [check_eq_ok settled, found, ← same]
      rfl

end Provenance.DDnnf
