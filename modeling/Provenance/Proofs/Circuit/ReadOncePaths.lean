import Provenance.Proofs.Circuit.ReadOnce
import Provenance.Proofs.Circuit.ReadOnceFrames

/-!
# Completeness of the closed form

A path says at each gate the place of the wire to take (`follow`), so two wires to one child make two paths.
The closed form succeeds when one path at most leads to each input, and one path at most to the alternatives
of a key unless they are different children of one disjunction, to which one path leads (`ReadsOnce`).  Then
the children of a gate share no source, neither an input nor a key, but for alternatives that wait under a
disjunction (`ReadsOnce.separate`).  So a gate finds nothing read when its turn comes, if nothing below it
was read when the turn of its parent came, and it reads no more than what is below it
(`readOnce_succeeds`).  What the closed form gives is the likelihood, and the machine with a stack of frames
stops with it (`independentEvaluation_complete`).
-/

namespace Provenance

/-! ## Paths -/

namespace Network

variable {κ : Type} {n : Network κ}

/-- The gate at the end of a path, which says at each gate the place of the wire to take. -/
def follow (n : Network κ) : (gate : Nat) → (path : List Nat) → Option Nat
  | gate, [] => some gate
  | gate, place :: path => (n.children gate)[place]?.bind fun child => n.follow child path

theorem follow_append (gate : Nat) (upper lower : List Nat) :
    n.follow gate (upper ++ lower) = (n.follow gate upper).bind fun middle => n.follow middle lower := by
  induction upper generalizing gate with
  | nil => rfl
  | cons place upper ih =>
    rw [List.cons_append, follow, follow, Option.bind_assoc]
    simp only [ih]

theorem follow_concat {root gate child : Nat} {path : List Nat} {place : Nat}
    (upper : n.follow root path = some gate) (wire : (n.children gate)[place]? = some child) :
    n.follow root (path ++ [place]) = some child := by
  rw [follow_append, upper]
  simp [follow, wire]

/-- A path by way of a place of a gate. -/
theorem follow_by_place {root gate leaf : Nat} {path lower : List Nat} {place : Nat}
    (upper : n.follow root path = some gate) (inside : place < (n.children gate).length)
    (under : n.follow (n.children gate)[place] lower = some leaf) :
    n.follow root (path ++ place :: lower) = some leaf := by
  rw [follow_append, upper, Option.bind_some, follow, List.getElem?_eq_getElem inside, Option.bind_some, under]

theorem reaches_iff_follow {root gate : Nat} :
    n.Reaches root gate ↔ ∃ path, n.follow root path = some gate := by
  constructor
  · intro reaches
    induction reaches with
    | refl => exact ⟨[], rfl⟩
    | tail _ wire ih =>
      obtain ⟨path, upper⟩ := ih
      obtain ⟨place, found⟩ := List.getElem?_of_mem wire
      exact ⟨_, follow_concat upper found⟩
  · rintro ⟨path, led⟩
    induction path generalizing root with
    | nil =>
      obtain rfl := Option.some.inj led
      exact .refl root
    | cons place path ih =>
      obtain ⟨child, found, rest⟩ := Option.bind_eq_some_iff.1 led
      exact .of_child (List.mem_of_getElem? found) (ih rest)

end Network

namespace Circuit

open Network

variable {c : Circuit Rat} {root gate : Nat} {seen : Seen}

/-! ## Circuits that read once -/

/-- A path leads to an alternative of a key. -/
structure LeadsTo (c : Circuit Rat) (root key : Nat) (path : List Nat) (leaf : Nat) : Prop where
  follow : c.follow root path = some leaf
  kind : c.kind leaf = .alternative
  key : c.key? leaf = some key

/-- The paths to the alternatives of a key end in different children of one disjunction, to which one path
leads. -/
structure Gathers (c : Circuit Rat) (root key disjunction : Nat) (upper : List Nat) : Prop where
  kind : c.kind disjunction = .or
  /-- One path leads to the disjunction. -/
  single : ∀ path, c.follow root path = some disjunction ↔ path = upper
  ends : ∀ path leaf, c.LeadsTo root key path leaf → leaf ∈ c.children disjunction
  /-- Different paths end in different children. -/
  different : ∀ path other leaf,
    c.LeadsTo root key path leaf → c.LeadsTo root key other leaf → path = other

/-- One path at most leads to each input, and to the alternatives of each key one path at most, or paths that
end in different children of one disjunction. -/
structure ReadsOnce (c : Circuit Rat) (root : Nat) : Prop where
  input : ∀ input, c.kind input = .input → ∀ path other,
    c.follow root path = some input → c.follow root other = some input → path = other
  key : ∀ key,
    (∀ path other leaf leaf',
      c.LeadsTo root key path leaf → c.LeadsTo root key other leaf' → path = other) ∨
      ∃ disjunction upper, c.Gathers root key disjunction upper

/-- A path by way of a place that is also a longer path by one place ends there or goes on. -/
theorem concat_cases {path lower upper : List Nat} {place last : Nat}
    (same : path ++ place :: lower = upper ++ [last]) :
    (lower = [] ∧ path = upper) ∨ ∃ rest, upper = path ++ place :: rest := by
  rcases List.eq_nil_or_concat lower with rfl | ⟨rest, final, rfl⟩
  · exact Or.inl ⟨rfl, (List.append_inj' same rfl).1⟩
  · have same : (path ++ place :: rest) ++ [final] = upper ++ [last] := by simpa using same
    exact Or.inr ⟨rest, (List.append_inj' same rfl).1.symm⟩

/-- Paths by different places of a gate are different. -/
theorem append_place_ne {path lower lower' : List Nat} {i j : Nat} (different : i ≠ j) :
    path ++ i :: lower ≠ path ++ j :: lower' := fun same =>
  different (List.cons.inj (List.append_cancel_left same)).1

section Gathers

variable {key disjunction leaf leaf' : Nat} {upper path lower lower' : List Nat}

/-- The paths to the alternatives lead through the disjunction: there is a path that does, and no other ends
in the same alternative. -/
theorem Gathers.path_eq (gathers : c.Gathers root key disjunction upper)
    (leads : c.LeadsTo root key path leaf) : ∃ place, path = upper ++ [place] := by
  obtain ⟨place, found⟩ := List.getElem?_of_mem (gathers.ends path leaf leads)
  have straight := follow_concat ((gathers.single upper).2 rfl) found
  exact ⟨place, gathers.different _ _ leaf leads ⟨straight, leads.kind, leads.key⟩⟩

/-- Paths to the alternatives part at the disjunction only, and end at once. -/
theorem Gathers.parting (gathers : c.Gathers root key disjunction upper) {i j : Nat} (different : i ≠ j)
    (first : c.LeadsTo root key (path ++ i :: lower) leaf)
    (second : c.LeadsTo root key (path ++ j :: lower') leaf') : path = upper ∧ lower = [] ∧ lower' = [] := by
  obtain ⟨place, straight⟩ := gathers.path_eq first
  obtain ⟨place', straight'⟩ := gathers.path_eq second
  rcases concat_cases straight with ⟨rfl, rfl⟩ | ⟨rest, above⟩
  · rcases concat_cases straight' with ⟨rfl, _⟩ | ⟨rest', above'⟩
    · exact ⟨rfl, rfl, rfl⟩
    · exact absurd (congrArg List.length above') (by simp)
  · rcases concat_cases straight' with ⟨_, rfl⟩ | ⟨rest', above'⟩
    · exact absurd (congrArg List.length above) (by simp)
    · exact absurd (above.symm.trans above') (append_place_ne different)

end Gathers

/-! ## Sources -/

/-- What the truth of gates comes from. -/
inductive Source where
  /-- An input. -/
  | input (gate : Nat)
  /-- The key of some alternatives. -/
  | key (key : Nat)

/-- The source of a leaf. -/
def IsSource (c : Circuit Rat) (leaf : Nat) : Source → Prop
  | .input gate => c.kind leaf = .input ∧ leaf = gate
  | .key key => c.kind leaf = .alternative ∧ c.key? leaf = some key

/-- There is a leaf with the source below a gate. -/
def DrawsOn (c : Circuit Rat) (gate : Nat) (source : Source) : Prop :=
  ∃ leaf, c.Reaches gate leaf ∧ c.IsSource leaf source

theorem DrawsOn.of_child {child : Nat} {source : Source} (wire : child ∈ c.children gate)
    (draws : c.DrawsOn child source) : c.DrawsOn gate source := by
  obtain ⟨leaf, path, is_source⟩ := draws
  exact ⟨leaf, .of_child wire path, is_source⟩

/-- Two children of a gate of a kind share no source, but for different alternatives that both wait. -/
def KeepApart (c : Circuit Rat) (kind : Kind) (a b : Nat) : Prop :=
  ∀ source, c.DrawsOn a source → c.DrawsOn b source →
    c.isDeferred kind a = true ∧ c.isDeferred kind b = true ∧ a ≠ b

instance (kind : Kind) : Std.Symm (c.KeepApart kind) where
  symm _ _ apart source left right := by
    obtain ⟨first, second, different⟩ := apart source right left
    exact ⟨second, first, different.symm⟩

/-- The children of a gate share no source, but for different alternatives that wait. -/
def Separate (c : Circuit Rat) (gate : Nat) : Prop :=
  (c.children gate).Pairwise (c.KeepApart (c.kind gate))

/-- Where each source is read once the children of a gate share none, unless they are alternatives under the
disjunction that gathers their key. -/
theorem ReadsOnce.separate (once : c.ReadsOnce root) (reaches : c.Reaches root gate) : c.Separate gate := by
  obtain ⟨path, led⟩ := reaches_iff_follow.1 reaches
  refine List.pairwise_iff_getElem.2 fun i j left right before source => ?_
  rintro ⟨leaf, below, is_source⟩ ⟨leaf', below', is_source'⟩
  have different : i ≠ j := Nat.ne_of_lt before
  obtain ⟨lower, under⟩ := reaches_iff_follow.1 below
  obtain ⟨lower', under'⟩ := reaches_iff_follow.1 below'
  have first := follow_by_place led left under
  have second := follow_by_place led right under'
  cases source with
  | input input =>
    obtain ⟨kind, rfl⟩ := is_source
    obtain ⟨_, rfl⟩ := is_source'
    exact absurd (once.input leaf' kind _ _ first second) (append_place_ne different)
  | key key =>
    have first : c.LeadsTo root key (path ++ i :: lower) leaf := ⟨first, is_source.1, is_source.2⟩
    have second : c.LeadsTo root key (path ++ j :: lower') leaf' := ⟨second, is_source'.1, is_source'.2⟩
    rcases once.key key with single | ⟨disjunction, upper, gathers⟩
    · exact absurd (single _ _ leaf leaf' first second) (append_place_ne different)
    · -- the gate is the disjunction and the two children are leaves
      obtain ⟨rfl, rfl, rfl⟩ := gathers.parting different first second
      obtain rfl := Option.some.inj (led.symm.trans ((gathers.single path).2 rfl))
      obtain rfl := Option.some.inj under
      obtain rfl := Option.some.inj under'
      refine ⟨?_, ?_, fun same => ?_⟩
      · simp [isDeferred, gathers.kind, first.kind]
      · simp [isDeferred, gathers.kind, second.kind]
      · rw [← same] at second
        exact append_place_ne different (gathers.different _ _ _ first second)

/-! ## Steps that succeed -/

/-- A source has been read. -/
def Seen.Has (seen : Seen) : Source → Prop
  | .input gate => gate ∈ seen.inputs
  | .key key => key ∈ seen.keys

/-- A step succeeds and reads nothing but some sources. -/
def Succeeds {β : Type} (step : Outcome (β × Seen)) (seen : Seen) (reads : Source → Prop) : Prop :=
  ∃ result seen', step = .ok (result, seen') ∧ ∀ source, seen'.Has source → seen.Has source ∨ reads source

theorem Succeeds.mono {β : Type} {step : Outcome (β × Seen)} {reads reads' : Source → Prop}
    (succeeds : Succeeds step seen reads) (more : ∀ source, reads source → reads' source) :
    Succeeds step seen reads' := by
  obtain ⟨result, seen', made, only⟩ := succeeds
  exact ⟨result, seen', made, fun source there => (only source there).imp_right (more source)⟩

/-- A step that succeeds goes before another one. -/
theorem Succeeds.bind {β γ : Type} {step : Outcome (β × Seen)} {next : β × Seen → Outcome (γ × Seen)}
    {first second : Source → Prop} (succeeds : Succeeds step seen first)
    (rest : ∀ result seen', (∀ source, seen'.Has source → seen.Has source ∨ first source) →
      Succeeds (next (result, seen')) seen' second) :
    Succeeds (step >>= next) seen fun source => first source ∨ second source := by
  obtain ⟨result, seen', made, only⟩ := succeeds
  obtain ⟨last, seen'', made', only'⟩ := rest result seen' only
  refine ⟨last, seen'', by rw [made]; exact made', fun source there => ?_⟩
  rcases only' source there with before | new
  · exact (only source before).imp_right Or.inl
  · exact Or.inr (Or.inr new)

theorem Succeeds.pure {β : Type} (result : β) : Succeeds (.ok (result, seen)) seen fun _ => False :=
  ⟨result, seen, rfl, fun _ there => Or.inl there⟩

theorem Succeeds.map {β γ : Type} {step : Outcome (β × Seen)} {reads : Source → Prop}
    (succeeds : Succeeds step seen reads) (f : β → γ) :
    Succeeds (step >>= fun (result, seen) => .ok (f result, seen)) seen reads := by
  obtain ⟨result, seen', made, only⟩ := succeeds
  exact ⟨f result, seen', by rw [made]; rfl, only⟩

theorem readInput_eq_ok (new : ¬ seen.Has (.input gate)) :
    ∃ seen', seen.readInput gate = .ok seen' ∧
      ∀ source, seen'.Has source → seen.Has source ∨ source = .input gate := by
  have new : seen.inputs.contains gate = false := Bool.eq_false_iff.2 fun there =>
    new (GateSet.contains_iff.1 there)
  refine ⟨{ seen with inputs := seen.inputs.insert gate }, by simp [Seen.readInput, new], ?_⟩
  rintro (input | key) there
  · rcases GateSet.mem_insert.1 there with rfl | before
    · exact Or.inr rfl
    · exact Or.inl before
  · exact Or.inl there

theorem readKey_eq_ok {key : Nat} (gate : Nat) (new : ¬ seen.Has (.key key)) :
    ∃ seen', seen.readKey key gate = .ok seen' ∧
      ∀ source, seen'.Has source → seen.Has source ∨ source = .key key := by
  have new : seen.keys.contains key = false := Bool.eq_false_iff.2 fun there =>
    new (GateSet.contains_iff.1 there)
  refine ⟨{ seen with keys := seen.keys.insert key }, by simp [Seen.readKey, new], ?_⟩
  rintro (input | other) there
  · exact Or.inl there
  · rcases GateSet.mem_insert.1 there with rfl | before
    · exact Or.inr rfl
    · exact Or.inl before

/-- A leaf is read. -/
theorem succeeds_of_read {read : Outcome Seen} {source : Source} {reads : Source → Prop}
    (made : ∃ seen', read = .ok seen' ∧ ∀ other, seen'.Has other → seen.Has other ∨ other = source)
    (reads_source : reads source) (p : Rat) :
    Succeeds (read >>= fun seen => .ok (p, seen)) seen reads := by
  obtain ⟨seen', made, only⟩ := made
  refine ⟨p, seen', Outcome.bind_eq_ok.2 ⟨seen', made, rfl⟩, fun other there => ?_⟩
  rcases only other there with before | rfl
  · exact Or.inl before
  · exact Or.inr reads_source

/-! ## Alternatives under a disjunction -/

theorem multiplyKeys_succeeds {children keys : List Nat} (nodup : keys.Nodup)
    (fresh : ∀ key ∈ keys, ¬ seen.Has (.key key)) (accumulated : Rat) :
    Succeeds (c.multiplyKeys gate children keys seen accumulated) seen
      fun source => ∃ key ∈ keys, source = .key key := by
  induction keys generalizing seen accumulated with
  | nil => exact (Succeeds.pure accumulated).mono fun _ none => none.elim
  | cons key keys ih =>
    obtain ⟨absent, nodup⟩ := List.nodup_cons.1 nodup
    obtain ⟨middle, read, only⟩ := readKey_eq_ok gate (fresh key List.mem_cons_self)
    have fresh : ∀ other ∈ keys, ¬ middle.Has (.key other) := by
      intro other listed there
      rcases only _ there with before | same
      · exact fresh other (List.mem_cons_of_mem key listed) before
      · exact absent (Source.key.inj same ▸ listed)
    obtain ⟨result, seen', made, only'⟩ := ih nodup fresh (accumulated * (1 - c.keyWeight key children))
    refine ⟨result, seen', by rw [multiplyKeys, read]; exact made, fun source there => ?_⟩
    rcases only' source there with middle | ⟨other, listed, same⟩
    · exact (only source middle).imp_right fun same => ⟨key, List.mem_cons_self, same⟩
    · exact Or.inr ⟨other, List.mem_cons_of_mem key listed, same⟩

theorem noAlternative_succeeds
    (keyed : ∀ child ∈ c.children gate, c.kind child = .alternative → ∃ key, c.key? child = some key)
    (fresh : ∀ child ∈ c.children gate, c.kind child = .alternative →
      ∀ source, c.IsSource child source → ¬ seen.Has source) :
    Succeeds (c.noAlternative gate seen) seen fun source =>
      ∃ child ∈ c.children gate, c.kind child = .alternative ∧ c.IsSource child source := by
  have member : ∀ child ∈ (c.children gate).filter (c.kind · == .alternative),
      child ∈ c.children gate ∧ c.kind child = .alternative := fun child listed => by
    simpa using listed
  obtain ⟨keys, required⟩ : ∃ keys,
      ((c.children gate).filter (c.kind · == .alternative)).mapM c.requireKey = .ok keys := by
    refine ⟨_, @Outcome.mapM_eq_ok _ _ _ (fun child => (c.key? child).getD 0) _ fun child listed => ?_⟩
    obtain ⟨key, found⟩ := keyed child (member child listed).1 (member child listed).2
    rw [requireKey, found]
    rfl
  have origin : ∀ key ∈ (GateSet.ofList keys).toList,
      ∃ child ∈ c.children gate, c.kind child = .alternative ∧ c.key? child = some key := by
    intro key listed
    rw [← GateSet.mem_def, GateSet.mem_ofList] at listed
    obtain ⟨child, there, found⟩ := (Outcome.mem_of_mapM required).2 key listed
    exact ⟨child, (member child there).1, (member child there).2, Outcome.ofOption_eq_ok.1 found⟩
  have fresh : ∀ key ∈ (GateSet.ofList keys).toList, ¬ seen.Has (.key key) := by
    intro key listed
    obtain ⟨child, wire, kind, found⟩ := origin key listed
    exact fresh child wire kind (.key key) ⟨kind, found⟩
  have multiplied : Succeeds (c.noAlternative gate seen) seen
      fun source => ∃ key ∈ (GateSet.ofList keys).toList, source = .key key := by
    simp only [noAlternative, required]
    exact multiplyKeys_succeeds (GateSet.nodup_toList _) fresh Scalar.one
  refine multiplied.mono ?_
  rintro _ ⟨key, listed, rfl⟩
  obtain ⟨child, wire, kind, found⟩ := origin key listed
  exact ⟨child, wire, kind, kind, found⟩

/-! ## Gates -/

/-- The closed form has a rule for a gate: it is defined, with exactly one child if it is a negation and with
a key if it is an alternative. -/
def HasRule (c : Circuit Rat) (gate : Nat) : Prop :=
  match c.kind gate with
  | .input | .and | .or => True
  | .not => ∃ child, c.children gate = [child]
  | .alternative => ∃ key, c.key? gate = some key
  | .undetermined => False

theorem HasRule.exists_key (rule : c.HasRule gate) (kind : c.kind gate = .alternative) :
    ∃ key, c.key? gate = some key := by
  simpa [HasRule, kind] using rule

theorem HasRule.exists_child (rule : c.HasRule gate) (kind : c.kind gate = .not) :
    ∃ child, c.children gate = [child] := by
  simpa [HasRule, kind] using rule

/-- Nothing that is below a gate was read. -/
def Fresh (c : Circuit Rat) (seen : Seen) (gate : Nat) : Prop :=
  ∀ source, c.DrawsOn gate source → ¬ seen.Has source

/-- Children that keep apart are read one after the other: the reads of the first ones leave the others
fresh. -/
theorem readOnceAll_succeeds {kind : Kind} {children : List Nat} {depth : Nat}
    (apart : children.Pairwise (c.KeepApart kind))
    (below : ∀ child ∈ children, ∀ seen, c.Fresh seen child →
      Succeeds (c.readOnce child depth seen) seen (c.DrawsOn child))
    (fresh : ∀ child ∈ children, c.Fresh seen child) (accumulated : Rat) :
    Succeeds (c.readOnceAll kind children depth seen accumulated) seen fun source =>
      ∃ child ∈ children, c.isDeferred kind child = false ∧ c.DrawsOn child source := by
  induction children generalizing seen accumulated with
  | nil =>
    rw [readOnceAll]
    exact (Succeeds.pure accumulated).mono fun _ none => none.elim
  | cons child rest ih =>
    obtain ⟨head, apart⟩ := List.pairwise_cons.1 apart
    have below_rest := fun other listed => below other (List.mem_cons_of_mem child listed)
    have fresh_rest := fun other listed => fresh other (List.mem_cons_of_mem child listed)
    rw [readOnceAll]
    split
    · refine (ih apart below_rest fresh_rest accumulated).mono ?_
      rintro source ⟨other, listed, present⟩
      exact ⟨other, List.mem_cons_of_mem child listed, present⟩
    · rename_i present
      refine (Succeeds.bind (below child List.mem_cons_self seen (fresh child List.mem_cons_self))
        fun p middle only => ih apart below_rest (fun other listed source draws there => ?_) _).mono ?_
      · rcases only source there with before | shared
        · exact fresh_rest other listed source draws before
        · exact present (head other listed source shared draws).1
      · rintro source (draws | ⟨other, listed, present⟩)
        · exact ⟨child, List.mem_cons_self, Bool.eq_false_iff.2 present, draws⟩
        · exact ⟨other, List.mem_cons_of_mem child listed, present⟩

/-- The alternatives of a disjunction are read after the other children, which leave them fresh. -/
theorem disjunction_succeeds {depth : Nat} (apart : (c.children gate).Pairwise (c.KeepApart .or))
    (rule : ∀ child ∈ c.children gate, c.HasRule child)
    (below : ∀ child ∈ c.children gate, ∀ seen, c.Fresh seen child →
      Succeeds (c.readOnce child depth seen) seen (c.DrawsOn child))
    (fresh : ∀ child ∈ c.children gate, c.Fresh seen child) :
    Succeeds (c.readOnceAll .or (c.children gate) depth seen Scalar.one >>= fun (noChild, seen) =>
      c.noAlternative gate seen >>= fun (noAlternative, seen) =>
        .ok (Scalar.complement (noChild * noAlternative), seen)) seen (c.DrawsOn gate) := by
  refine (Succeeds.bind (readOnceAll_succeeds apart below fresh Scalar.one) fun noChild middle only =>
    (noAlternative_succeeds (fun child wire => (rule child wire).exists_key)
      fun child wire kind source is_source there => ?_).map
        fun noAlternative => Scalar.complement (noChild * noAlternative)).mono ?_
  · have draws : c.DrawsOn child source := ⟨child, .refl child, is_source⟩
    rcases only source there with before | ⟨other, wire', present, draws'⟩
    · exact fresh child wire source draws before
    · have different : other ≠ child := by
        rintro rfl
        simp [isDeferred, kind] at present
      have waits := (apart.forall wire' wire different source draws' draws).1
      rw [present] at waits
      cases waits
  · rintro source (⟨child, wire, _, draws⟩ | ⟨child, wire, _, is_source⟩)
    · exact draws.of_child wire
    · exact DrawsOn.of_child wire ⟨child, .refl child, is_source⟩

/-- A gate below which nothing was read is read, and nothing but what is below it. -/
theorem readOnce_succeeds (acyclic : c.Acyclic) (even : c.Even) {depth : Nat} (deep : c.scope gate < depth)
    (rule : ∀ other, c.Reaches gate other → c.HasRule other)
    (separate : ∀ other, c.Reaches gate other → c.Separate other) (fresh : c.Fresh seen gate) :
    Succeeds (c.readOnce gate depth seen) seen (c.DrawsOn gate) := by
  induction depth generalizing gate seen with
  | zero => exact absurd deep (Nat.not_lt_zero _)
  | succ depth ih =>
    have below : ∀ child ∈ c.children gate, ∀ seen, c.Fresh seen child →
        Succeeds (c.readOnce child depth seen) seen (c.DrawsOn child) := fun child wire seen fresh => by
      have lower := acyclic.scope_lt even wire
      exact ih (by omega) (fun other path => rule other (.of_child wire path))
        (fun other path => separate other (.of_child wire path)) fresh
    have fresh_children : ∀ child ∈ c.children gate, c.Fresh seen child := fun child wire source draws =>
      fresh source (draws.of_child wire)
    have apart := separate gate (.refl gate)
    have here := rule gate (.refl gate)
    unfold Separate at apart
    rw [readOnce]
    cases kind : c.kind gate with
    | input =>
      have draws : c.DrawsOn gate (.input gate) := ⟨gate, .refl gate, kind, rfl⟩
      exact succeeds_of_read (readInput_eq_ok (fresh _ draws)) draws (c.prob gate)
    | alternative =>
      obtain ⟨key, keyed⟩ := here.exists_key kind
      have draws : c.DrawsOn gate (.key key) := ⟨gate, .refl gate, kind, keyed⟩
      rw [requireKey, keyed]
      exact succeeds_of_read (readKey_eq_ok gate (fresh _ draws)) draws (c.prob gate)
    | and =>
      rw [kind] at apart
      refine (readOnceAll_succeeds apart below fresh_children Scalar.one).mono ?_
      rintro source ⟨child, wire, _, draws⟩
      exact draws.of_child wire
    | or =>
      rw [kind] at apart
      exact disjunction_succeeds apart (fun child wire => rule child (.of_child wire (.refl child))) below
        fresh_children
    | not =>
      obtain ⟨child, only⟩ := here.exists_child kind
      rw [only] at below fresh_children
      rw [onlyChild_eq_ok.2 only]
      refine ((readOnceAll_succeeds (List.pairwise_singleton (c.KeepApart .not) child) below fresh_children
        Scalar.zero).map Scalar.complement).mono ?_
      rintro source ⟨other, listed, _, draws⟩
      obtain rfl := List.mem_singleton.1 listed
      exact draws.of_child (by simp [only])
    | undetermined => simp [HasRule, kind] at here

/-! ## The evaluation of a root -/

/-- Where the children of gates keep apart no alternative stands twice under a disjunction. -/
theorem alternativesOnce_of_separate (rule : ∀ gate, c.Reaches root gate → c.HasRule gate)
    (separate : ∀ gate, c.Reaches root gate → c.Separate gate) : c.AlternativesOnce root := by
  intro gate path _
  refine ((separate gate path).filter _).imp_of_mem fun {a b} listed _ apart same => ?_
  obtain ⟨wire, kind⟩ := List.mem_filter.1 listed
  have kind : c.kind a = .alternative := by simpa using kind
  obtain ⟨key, keyed⟩ := (rule a (path.child wire)).exists_key kind
  have draws : c.DrawsOn a (.key key) := ⟨a, .refl a, kind, keyed⟩
  exact (apart (.key key) draws (same ▸ draws)).2.2 same

/-- The closed form gives the likelihood of each gate of a circuit without cycles that reads each source once,
whatever the weights are, and so does the machine with a stack of frames. -/
theorem independentEvaluation_complete (inStep : c.InStep) (acyclic : c.Acyclic)
    (rule : ∀ gate, c.Reaches root gate → c.HasRule gate) (once : c.ReadsOnce root) :
    ∃ p, c.independentEvaluation root = .ok p ∧
      ReadMachine.Goes c (.start c root) (.halted (.ok p)) ∧ p = c.likelihood root ∧
      ∀ world, c.Takes world root (c.truth world root) := by
  have separate : ∀ gate, c.Reaches root gate → c.Separate gate := fun gate path => once.separate path
  have unread : c.Fresh .nothing root := by
    rintro (input | key) _ there
    · exact GateSet.not_mem_empty there
    · exact GateSet.not_mem_empty there
  obtain ⟨p, seen, read, _⟩ := readOnce_succeeds acyclic inStep.even
    (Nat.lt_succ_of_le (c.scope_le_size root)) rule separate unread
  have found : c.independentEvaluation root = .ok p := by
    rw [independentEvaluation, read]
    rfl
  obtain ⟨_, takes, _, _, _, _, equal⟩ :=
    independentEvaluation_determines inStep (alternativesOnce_of_separate rule separate) found
  exact ⟨p, found, found ▸ goes_start acyclic inStep.even root, equal, takes⟩

/-- The paths from the disjunction of two alternatives: the empty one, and one to each alternative. -/
theorem follow_choicePair {path : List Nat} (led : choicePair.follow 2 path = some gate) :
    (path = [] ∧ gate = 2) ∨ (gate < 2 ∧ path = [gate]) := by
  cases path with
  | nil => exact Or.inl ⟨rfl, (Option.some.inj led).symm⟩
  | cons place path =>
    obtain ⟨child, found, rest⟩ := Option.bind_eq_some_iff.1 led
    have found : [0, 1][place]? = some child := found
    have inside : place < 2 := (List.getElem?_eq_some_iff.1 found).1
    have same : child = place := by
      obtain rfl | rfl : place = 0 ∨ place = 1 := by omega
      · exact (Option.some.inj found).symm
      · exact (Option.some.inj found).symm
    have childless : ∀ leaf < 2, choicePair.children leaf = [] := by decide
    cases path with
    | nil =>
      obtain rfl := Option.some.inj rest
      exact Or.inr ⟨same ▸ inside, by rw [same]⟩
    | cons next path =>
      obtain ⟨_, none, _⟩ := Option.bind_eq_some_iff.1 rest
      simp [childless child (same ▸ inside)] at none

theorem readsOnce_choicePair : choicePair.ReadsOnce 2 where
  input input kind := by
    have kinds : ∀ gate < 3, choicePair.kind gate ≠ .input := by decide
    exact absurd kind (kinds input (lt_of_kind (by rw [kind]; decide)))
  key key := by
    have leaf : ∀ path leaf, choicePair.LeadsTo 2 key path leaf → leaf < 2 ∧ path = [leaf] := by
      intro path leaf leads
      rcases follow_choicePair leads.follow with ⟨_, rfl⟩ | there
      · exact absurd leads.kind (by decide)
      · exact there
    refine Or.inr ⟨2, [], { kind := rfl, single := ?_, ends := ?_, different := ?_ }⟩
    · intro path
      refine ⟨fun led => ?_, fun empty => empty ▸ rfl⟩
      rcases follow_choicePair led with ⟨empty, _⟩ | ⟨below, _⟩
      · exact empty
      · exact absurd below (by decide)
    · have children : ∀ leaf < 2, leaf ∈ choicePair.children 2 := by decide
      exact fun path gate leads => children gate (leaf path gate leads).1
    · exact fun path other gate leads leads' =>
        (leaf path gate leads).2.trans (leaf other gate leads').2.symm

/-- Two alternatives of one key are read by way of their disjunction. -/
theorem independentEvaluation_complete_choicePair :
    choicePair.InStep ∧ choicePair.Acyclic ∧ (∀ gate, choicePair.Reaches 2 gate → choicePair.HasRule gate) ∧
      choicePair.ReadsOnce 2 ∧ ∃ p, choicePair.independentEvaluation 2 = .ok p ∧
        ReadMachine.Goes choicePair (.start choicePair 2) (.halted (.ok p)) ∧ p = choicePair.likelihood 2 ∧
        ∀ world, choicePair.Takes world 2 (choicePair.truth world 2) := by
  have rule : ∀ gate, choicePair.Reaches 2 gate → choicePair.HasRule gate := by
    intro gate reaches
    obtain ⟨path, led⟩ := reaches_iff_follow.1 reaches
    have small : gate < 3 := by
      rcases follow_choicePair led with ⟨_, rfl⟩ | ⟨below, _⟩ <;> omega
    obtain rfl | rfl | rfl : gate = 0 ∨ gate = 1 ∨ gate = 2 := by omega
    · exact ⟨7, rfl⟩
    · exact ⟨7, rfl⟩
    · trivial
  exact ⟨wellFormed_choicePair.inStep, wellFormed_choicePair.acyclic, rule, readsOnce_choicePair,
    independentEvaluation_complete wellFormed_choicePair.inStep wellFormed_choicePair.acyclic rule
      readsOnce_choicePair⟩

end Circuit

end Provenance
