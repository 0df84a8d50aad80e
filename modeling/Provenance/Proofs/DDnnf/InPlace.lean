import Provenance.Proofs.DDnnf.Table

/-!
# Tables filled in place

The tables of a circuit are filled in place: convolutions and sums add to the entries of a table that starts
with zeros, and rows of Pascal's triangle overwrite a row of ones.  Every access to a table is checked here,
and a computation that leaves a table has no result.  The computations do not leave their tables, and they
fill them with what the definitions of the tables say (`Distribution.convolveInto_eq`,
`Triangle.convolveInto_eq`, `Triangle.addInto_eq`, `Triangle.pascalInto_eq`, `Triangle.complementOf_eq`).
This holds for scalars of any type, as the entries are added up in the same order.

A loop that changes the entries of a table one after the other, or one entry again and again, has a table with
known entries as its result (`loop_change`, `loop_change_entry`); the loops below are nests of such ones.
-/

namespace Provenance

variable {α β σ : Type} [Scalar α]

/-! ## Accesses and loops -/

/-- Runs a step for each index, from the lowest. -/
def loop (step : Nat → σ → Option σ) : (count : Nat) → σ → Option σ
  | 0, s => some s
  | count + 1, s => (loop step count s).bind (step count)

/-- A loop goes through the states that its steps lead to. -/
theorem loop_eq_some {step : Nat → σ → Option σ} {count : Nat} {s t : σ} (state : Nat → σ)
    (start : s = state 0) (each : ∀ i < count, step i (state i) = some (state (i + 1)))
    (finish : state count = t) : loop step count s = some t := by
  subst start finish
  induction count with
  | zero => rfl
  | succ count ih =>
    rw [loop, ih fun i below => each i (Nat.lt_succ_of_lt below), Option.bind_some,
      each count (Nat.lt_succ_self count)]

/-- Changes one entry of a table. -/
def change (table : Array β) (i : Nat) (f : β → Option β) : Option (Array β) := do
  let entry ← table[i]?
  let entry ← f entry
  some (table.setIfInBounds i entry)

/-- The table with given entries. -/
def filled (size : Nat) (value : Nat → β) : Array β := (Array.range size).map value

@[simp] theorem size_filled (size : Nat) (value : Nat → β) : (filled size value).size = size := by
  simp [filled]

@[simp] theorem getElem_filled {size i : Nat} (value : Nat → β) (inside : i < (filled size value).size) :
    (filled size value)[i] = value i := by
  simp [filled]

theorem getElem?_filled {size i : Nat} (value : Nat → β) (inside : i < size) :
    (filled size value)[i]? = some (value i) := by
  simp [filled, inside]

theorem filled_congr {size : Nat} {value value' : Nat → β} (same : ∀ i < size, value i = value' i) :
    filled size value = filled size value' :=
  Array.ext (by simp) fun i inside _ => by simpa using same i (by simpa using inside)

/-- A table is filled with its entries. -/
theorem eq_filled (table : Array β) (default : β) :
    table = filled table.size (table.getD · default) :=
  Array.ext (by simp) fun i inside _ => by simp [inside]

theorem change_filled {size i : Nat} (value : Nat → β) (f : β → Option β) (inside : i < size) :
    change (filled size value) i f =
      (f (value i)).map fun entry => filled size (Function.update value i entry) := by
  simp only [change, getElem?_filled value inside, Option.bind_eq_bind, Option.bind_some]
  rcases f (value i) with _ | entry
  · rfl
  rw [Option.bind_some, Option.map_some, Option.some_inj]
  refine Array.ext (by simp) fun k small _ => ?_
  rw [Array.size_setIfInBounds] at small
  rw [Array.getElem_setIfInBounds small, getElem_filled, getElem_filled, Function.update_apply]
  simp only [eq_comm]

/-- Entries that are changed one after the other. -/
theorem loop_change {step : Nat → Array β → Option (Array β)} (f : Nat → β → Option β) (entry : Nat → β)
    {value : Nat → β} {size i count : Nat}
    (each : ∀ j < count, ∀ value, step j (filled size value) = change (filled size value) (i + j) (f j))
    (changed : ∀ j < count, f j (value (i + j)) = some (entry (i + j))) (fits : i + count ≤ size) :
    loop step count (filled size value) =
      some (filled size fun k => if i ≤ k ∧ k - i < count then entry k else value k) := by
  refine loop_eq_some (fun j => filled size fun k => if i ≤ k ∧ k - i < j then entry k else value k)
    (filled_congr fun k _ => by simp) (fun j below => ?_) rfl
  rw [each j below, change_filled _ _ (by omega), if_neg (by omega), changed j below, Option.map_some]
  refine congrArg some (filled_congr fun k _ => ?_)
  rw [Function.update_apply]
  by_cases here : k = i + j
  · subst here
    simp
  · have same : (i ≤ k ∧ k - i < j + 1) ↔ i ≤ k ∧ k - i < j := by omega
    simp only [if_neg here, same]

/-- The first entries are changed one after the other. -/
theorem loop_change_first {step : Nat → Array β → Option (Array β)} (f : Nat → β → Option β)
    (entry : Nat → β) {value : Nat → β} {size count : Nat}
    (each : ∀ j < count, ∀ value, step j (filled size value) = change (filled size value) j (f j))
    (changed : ∀ j < count, f j (value j) = some (entry j)) (fits : count ≤ size) :
    loop step count (filled size value) =
      some (filled size fun k => if k < count then entry k else value k) := by
  refine (loop_change (i := 0) f entry ?_ ?_ ?_).trans (by simp)
  all_goals simpa only [Nat.zero_add]

/-- One entry that is changed again and again. -/
theorem loop_change_entry {step : Nat → Array β → Option (Array β)} (f : Nat → β → Option β)
    {size i count : Nat} (inside : i < size)
    (each : ∀ j < count, ∀ value, step j (filled size value) = change (filled size value) i (f j))
    (value : Nat → β) :
    loop step count (filled size value) = change (filled size value) i (loop f count) := by
  induction count with
  | zero =>
    rw [change_filled _ _ inside, loop, loop, Option.map_some, Function.update_eq_self]
  | succ count ih =>
    rw [loop, ih fun j below => each j (Nat.lt_succ_of_lt below), change_filled _ _ inside,
      change_filled _ _ inside, loop]
    rcases loop f count (value i) with _ | entry
    · rfl
    · rw [Option.map_some, Option.bind_some, Option.bind_some, each count (Nat.lt_succ_self count),
        change_filled _ _ inside, Function.update_self]
      simp only [Function.update_idem]

/-- Collects the results of a step for each index. -/
def collect (count : Nat) (value : Nat → Option β) : Option (Array β) :=
  loop (fun i results => (value i).map results.push) count #[]

theorem collect_eq_some {count : Nat} {value : Nat → Option β} {result : Nat → β}
    (each : ∀ i < count, value i = some (result i)) :
    collect count value = some (filled count result) := by
  refine loop_eq_some (filled · result) (by simp [filled]) (fun i below => ?_) rfl
  simp [each i below, filled, Array.range_succ]

/-! ## Distributions -/

namespace Distribution

theorem getElem?_entry {a : Distribution α} {k : Nat} (inside : k < a.size) :
    a[k]? = some (a.entry k) := by
  simp [entry, inside]

/-- The convolution of two distributions, filled in place. Its size is not defined for two empty ones. -/
def convolveInto (a b : Distribution α) : Option (Distribution α) :=
  if a.size + b.size = 0 then none
  else
    loop
      (fun i result => do
        let x ← a[i]?
        loop
          (fun j result => do
            let y ← b[j]?
            change result (i + j) fun total => some (total + x * y))
          b.size result)
      a.size (Array.replicate (a.size + b.size - 1) Scalar.zero)

/-- What the first indices contribute to an entry of the convolution. -/
def summed (a b : Distribution α) (count k : Nat) : α :=
  accumulate (fun i total => if i ≤ k ∧ k - i < b.size then total + entry a i * entry b (k - i) else total)
    Scalar.zero count

theorem convolveInto_eq {a : Distribution α} (nonempty : 0 < a.size) (b : Distribution α) :
    a.convolveInto b = some (a.convolve b) := by
  rw [convolveInto, if_neg (by omega)]
  refine loop_eq_some (fun i => filled (a.size + b.size - 1) (summed a b i)) ?_ (fun i row => ?_) rfl
  · exact Array.ext (by simp) fun k _ _ => by simp [summed, accumulate]
  simp only [getElem?_entry row, Option.bind_eq_bind, Option.bind_some]
  refine loop_change (fun j total => some (total + entry a i * entry b j))
    (fun k => summed a b i k + entry a i * entry b (k - i)) (fun j column value => ?_) (fun j _ => ?_)
    (by omega)
  · rw [getElem?_entry column, Option.bind_some]
  · rw [Nat.add_sub_cancel_left]

end Distribution

/-! ## Triangular tables -/

namespace Triangle

/-- The table has a row, and its row `k` has `k + 1` entries. -/
structure Full (a : Triangle α) : Prop where
  nonempty : 0 < a.size
  size_row : ∀ k (inside : k < a.size), a[k].size = k + 1

omit [Scalar α] in
theorem full_build {size : Nat} (nonempty : 0 < size) (value : Nat → Nat → α) :
    (build size value).Full where
  nonempty := by simpa using nonempty
  size_row k inside := by simp [build]

omit [Scalar α] in
theorem full_one (x : α) : Full #[#[x]] where
  nonempty := Nat.one_pos
  size_row k inside := by
    obtain rfl : k = 0 := Nat.lt_one_iff.1 inside
    rfl

omit [Scalar α] in
theorem full_two (x y z : α) : Full #[#[x], #[y, z]] where
  nonempty := Nat.two_pos
  size_row k inside := by
    obtain rfl | rfl : k = 0 ∨ k = 1 := Nat.le_one_iff_eq_zero_or_eq_one.1 (Nat.le_of_lt_succ inside)
    · rfl
    · rfl

omit [Scalar α] in
theorem build_congr {size : Nat} {value value' : Nat → Nat → α}
    (same : ∀ k < size, ∀ l ≤ k, value k l = value' k l) : build size value = build size value' :=
  filled_congr fun k row => filled_congr fun l column => same k row l (Nat.le_of_lt_succ column)

/-- The rows of a full table hold its entries. -/
theorem Full.getElem?_row {a : Triangle α} (full : a.Full) {k : Nat} (row : k < a.size) :
    a[k]? = some (filled (k + 1) (a.entry k)) := by
  have entries := eq_filled a[k] Scalar.zero
  rw [full.size_row k row] at entries
  rw [Array.getElem?_eq_getElem row, entries, Option.some_inj]
  exact filled_congr fun l _ => by simp [entry, row]

/-- All entries of a full table are coefficients of its polynomials. -/
theorem Full.coeff_poly {a : Triangle Rat} (full : a.Full) (k l : Nat) :
    (a.poly.coeff k).coeff l = a.entry k l := by
  rw [Triangle.coeff_poly]
  by_cases row : k < a.size
  · by_cases column : l ≤ k
    · rw [if_pos ⟨row, column⟩]
    · rw [if_neg fun both => column both.2]
      simp [entry, row, full.size_row k row, Nat.lt_of_not_le column]
  · rw [if_neg fun both => row both.1, entry_of_le (Nat.le_of_not_lt row)]

theorem Full.convolve {a b : Triangle α} (full : a.Full) (full' : b.Full) : (a.convolve b).Full := by
  have := full.nonempty
  have := full'.nonempty
  exact full_build (by omega) _

theorem Full.add {a b : Triangle α} (full : a.Full) : (a.add b).Full :=
  full_build (lt_max_of_lt_left full.nonempty) _

/-- Adds to one entry. -/
def addTo (result : Triangle α) (k l : Nat) (x : α) : Option (Triangle α) :=
  change result k fun row => change row l fun total => some (total + x)

/-- Adds a multiple of a table, moved down and to the right. -/
def addScaled (b : Triangle α) (x : α) (k l : Nat) (result : Triangle α) : Option (Triangle α) :=
  loop
    (fun k' result => do
      let row ← b[k']?
      loop
        (fun l' result => do
          let y ← row[l']?
          addTo result (k + k') (l + l') (x * y))
        row.size result)
    b.size result

theorem addScaled_build {b : Triangle α} (full : b.Full) (x : α) {k l size : Nat}
    (value : Nat → Nat → α) (fits : k + b.size ≤ size) (left : l ≤ k) :
    addScaled b x k l (build size value) = some (build size fun r c =>
      if k ≤ r ∧ r - k < b.size ∧ l ≤ c ∧ c - l ≤ r - k then value r c + x * b.entry (r - k) (c - l)
      else value r c) := by
  -- a row of `b` is added to one row, from column `l` on
  let adds (k' : Nat) : Array α → Option (Array α) :=
    loop (fun l' row => change row (l + l') fun total => some (total + x * b.entry k' l')) (k' + 1)
  let entry (r c : Nat) : α := value r c + x * b.entry (r - k) (c - l)
  let sums (r : Nat) : Array α :=
    filled (r + 1) fun c => if l ≤ c ∧ c - l < r - k + 1 then entry r c else value r c
  refine (loop_change adds sums (fun k' inside rows => ?_) (fun k' _ => ?_) fits).trans ?_
  · simp only [full.getElem?_row inside, Option.bind_eq_bind, Option.bind_some, size_filled]
    refine loop_change_entry _ (by omega) (fun l' column rows => ?_) rows
    rw [getElem?_filled _ column, Option.bind_some, addTo]
  · have row : k + k' - k = k' := Nat.add_sub_cancel_left ..
    simp only [sums, row]
    refine loop_change _ (entry (k + k')) (fun _ _ _ => rfl) (fun l' _ => ?_) (by omega)
    simp only [entry, row, Nat.add_sub_cancel_left]
  · refine congrArg some (filled_congr fun r _ => ?_)
    split
    · rename_i inside
      exact filled_congr fun c _ => by simp [entry, inside]
    · rename_i outside
      exact filled_congr fun c _ => (if_neg fun all => outside ⟨all.1, all.2.1⟩).symm

/-- The convolution of two triangles, filled in place. -/
def convolveInto (a b : Triangle α) : Option (Triangle α) :=
  if a.size + b.size = 0 then none
  else
    loop
      (fun k result => do
        let row ← a[k]?
        loop
          (fun l result => do
            let x ← row[l]?
            if Scalar.eq x Scalar.zero then some result else addScaled b x k l result)
          row.size result)
      a.size (build (a.size + b.size - 1) fun _ _ => Scalar.zero)

/-- What the first entries of row `k` add to the entry in row `r` and column `c` of the convolution. -/
def summedRow (a b : Triangle α) (k r c : Nat) (total : α) (count : Nat) : α :=
  accumulate
    (fun l total =>
      if l ≤ c ∧ c - l ≤ r - k ∧ !Scalar.eq (entry a k l) Scalar.zero then
        total + entry a k l * entry b (r - k) (c - l)
      else total)
    total count

/-- What the first rows contribute to an entry of the convolution. -/
def summed (a b : Triangle α) (count r c : Nat) : α :=
  accumulate (fun k total => if k ≤ r ∧ r - k < b.size then summedRow a b k r c total (k + 1) else total)
    Scalar.zero count

/-- The row `k` is gone through when the rows before it were. -/
theorem loop_addScaled {a b : Triangle α} (full' : b.Full) {k : Nat} (row : k < a.size) :
    loop
        (fun l result => do
          let x ← (filled (k + 1) (a.entry k))[l]?
          if Scalar.eq x Scalar.zero then some result else addScaled b x k l result)
        (k + 1) (build (a.size + b.size - 1) (summed a b k)) =
      some (build (a.size + b.size - 1) (summed a b (k + 1))) := by
  let part (l r c : Nat) : α :=
    if k ≤ r ∧ r - k < b.size then summedRow a b k r c (summed a b k r c) l else summed a b k r c
  refine loop_eq_some (fun l => build (a.size + b.size - 1) (part l)) ?_ (fun l column => ?_) rfl
  · exact build_congr fun r _ c _ => by simp [part, summedRow, accumulate]
  simp only [getElem?_filled _ column, Option.bind_eq_bind, Option.bind_some]
  split
  · rename_i zero
    refine congrArg some (build_congr fun r _ c _ => ?_)
    simp [part, summedRow, accumulate, zero]
  · rename_i nonzero
    rw [addScaled_build full' _ _ (by omega) (by omega)]
    refine congrArg some (build_congr fun r _ c _ => ?_)
    by_cases fits : k ≤ r ∧ r - k < b.size
    · simp [part, summedRow, accumulate, nonzero, fits]
    · rw [if_neg fun all => fits ⟨all.1, all.2.1⟩]
      simp only [part, if_neg fits]

theorem convolveInto_eq {a b : Triangle α} (full : a.Full) (full' : b.Full) :
    a.convolveInto b = some (a.convolve b) := by
  have nonempty := full.nonempty
  rw [convolveInto, if_neg (by omega)]
  refine loop_eq_some (fun k => build (a.size + b.size - 1) (summed a b k)) rfl (fun k row => ?_) rfl
  simp only [full.getElem?_row row, Option.bind_eq_bind, Option.bind_some, size_filled]
  exact loop_addScaled full' row

/-- A table cut or filled up to a size. -/
def resize (table : Array β) (size : Nat) (default : β) : Array β := filled size (table.getD · default)

/-- Adds a triangle to another one, in place. -/
def addInto (a b : Triangle α) : Option (Triangle α) :=
  loop
    (fun k result => do
      let row ← b[k]?
      let result ← change result k fun target => some (resize target (k + 1) Scalar.zero)
      loop
        (fun l result => do
          let x ← row[l]?
          addTo result k l x)
        row.size result)
    b.size (if a.size < b.size then resize a b.size #[] else a)

theorem addInto_eq {a b : Triangle α} (full : a.Full) (full' : b.Full) :
    a.addInto b = some (a.add b) := by
  let cell (k l : Nat) (row : Array α) : Option (Array α) :=
    change row l fun total => some (total + b.entry k l)
  let adds (k : Nat) (target : Array α) : Option (Array α) :=
    loop (cell k) (k + 1) (resize target (k + 1) Scalar.zero)
  let sums (k : Nat) : Array α := filled (k + 1) fun l => a.entry k l + b.entry k l
  have start : (if a.size < b.size then resize a b.size #[] else a) =
      filled (max a.size b.size) (a.getD · #[]) := by
    split
    · rename_i grows
      rw [resize, Nat.max_eq_right grows.le]
    · rename_i stays
      rw [Nat.max_eq_left (Nat.le_of_not_lt stays)]
      exact eq_filled a #[]
  rw [addInto, start]
  refine (loop_change_first adds sums (fun k inside rows => ?_) (fun k _ => ?_)
    (Nat.le_max_right ..)).trans ?_
  · have below : k < max a.size b.size := lt_of_lt_of_le inside (Nat.le_max_right ..)
    simp only [full'.getElem?_row inside, Option.bind_eq_bind, Option.bind_some, size_filled,
      change_filled _ _ below, Option.map_some, adds]
    refine (loop_change_entry (cell k) below (fun l column rows => ?_) _).trans ?_
    · rw [getElem?_filled _ column, Option.bind_some, addTo]
    · rw [change_filled _ _ below, Function.update_self]
      simp only [Function.update_idem]
  · have entries : resize (a.getD k #[]) (k + 1) Scalar.zero = filled (k + 1) (a.entry k) := rfl
    simp only [adds, entries]
    refine (loop_change_first (fun l total => some (total + b.entry k l))
      (fun l => a.entry k l + b.entry k l) (fun _ _ _ => rfl) (fun _ _ => rfl) (Nat.le_refl _)).trans ?_
    exact congrArg some (filled_congr fun l column => if_pos column)
  · refine congrArg some (filled_congr fun r inside => ?_)
    show _ = filled (r + 1) fun l => if r < b.size then a.entry r l + b.entry r l else a.entry r l
    by_cases both : r < b.size
    · simp only [if_pos both, sums]
    · have stored := full.getElem?_row ((lt_max_iff.1 inside).resolve_right both)
      simp only [if_neg both, Array.getD_eq_getD_getElem?, stored, Option.getD_some]

/-! ## Pascal's triangle -/

/-- A row of Pascal's triangle. -/
def pascalRow (k : Nat) : Array α := (pascalNext^[k] [Scalar.one]).toArray

theorem size_pascalRow (k : Nat) : (pascalRow k : Array α).size = k + 1 := by
  induction k with
  | zero => rfl
  | succ k ih =>
    rw [pascalRow, List.size_toArray] at ih ⊢
    rw [Function.iterate_succ_apply', pascalNext]
    simp [ih]

@[simp] theorem size_pascal (n : Nat) : (pascal n : Triangle α).size = n + 1 := by
  simp [pascal, Provenance.pascal, length_rows]

theorem pascal_eq_filled (n : Nat) : (pascal n : Triangle α) = filled (n + 1) pascalRow := by
  refine Array.ext (by simp) fun k inside _ => ?_
  have low : k ≤ n := by simpa [Nat.lt_succ_iff] using inside
  rw [← Option.some_inj, ← Array.getElem?_eq_getElem, getElem_filled]
  simp [pascal, Provenance.pascal, getElem?_rows _ low, pascalRow]

theorem getElem?_pascalRow {k l : Nat} (column : l ≤ k) :
    (pascalRow k : Array α)[l]? = some ((pascalRow k).getD l Scalar.zero) :=
  Distribution.getElem?_entry (by rw [size_pascalRow]; exact Nat.lt_succ_of_le column)

/-- The first rows do not depend on how many there are. -/
theorem entry_pascal_row {n k : Nat} (inside : k ≤ n) (l : Nat) :
    (pascal n : Triangle α).entry k l = (pascalRow k).getD l Scalar.zero := by
  simp only [entry, Array.getD_eq_getD_getElem?, pascal_eq_filled,
    getElem?_filled _ (Nat.lt_succ_of_le inside), Option.getD_some]

/-- Each row is the last one shifted and added to itself. -/
theorem pascalRow_succ (k : Nat) : (pascalRow (k + 1) : Array α) = filled (k + 2) fun l =>
    if 0 < l ∧ l < k + 1 then (pascalRow k).getD (l - 1) Scalar.zero + (pascalRow k).getD l Scalar.zero
    else Scalar.one := by
  have length : (pascalNext^[k] [Scalar.one] : List α).length = k + 1 := size_pascalRow k
  refine Array.ext (by simp [size_pascalRow]) fun l inside _ => ?_
  rw [size_pascalRow] at inside
  simp only [pascalRow, Function.iterate_succ_apply', pascalNext, getElem_filled]
  rcases l with _ | l
  · simp
  · by_cases last : l = k
    · subst last
      simp [length]
    · have low : l < k := by omega
      have low' : l < k + 1 := by omega
      simp [length, low, low']

/-- Pascal's triangle, filled in place. -/
def pascalInto (n : Nat) : Option (Triangle α) :=
  loop
    (fun k rows => do
      let row ← loop
        (fun l row => do
          let above ← rows[k - 1]?
          let left ← above[l]?
          let right ← above[l + 1]?
          change row (l + 1) fun _ => some (left + right))
        (k - 1) (Array.replicate (k + 1) Scalar.one)
      some (rows.push row))
    (n + 1) #[]

theorem pascalInto_eq (n : Nat) : pascalInto n = some (pascal n : Triangle α) := by
  rw [pascal_eq_filled]
  refine loop_eq_some (fun k => filled k (pascalRow : Nat → Array α)) (by simp [filled]) (fun k _ => ?_) rfl
  have row : loop (fun l row => do
      let above ← (filled k (pascalRow : Nat → Array α))[k - 1]?
      let left ← above[l]?
      let right ← above[l + 1]?
      change row (l + 1) fun _ => some (left + right)) (k - 1) (Array.replicate (k + 1) Scalar.one) =
        some (pascalRow k) := by
    rcases k with _ | k
    · rfl
    · -- the row starts with ones and is overwritten between its ends
      have ones : Array.replicate (k + 1 + 1) Scalar.one = filled (k + 2) fun _ => (Scalar.one : α) :=
        Array.ext (by simp) fun l _ _ => by rw [Array.getElem_replicate, getElem_filled]
      rw [pascalRow_succ, ones]
      refine (loop_change (i := 1) (fun l _ => some
          ((pascalRow k).getD l Scalar.zero + (pascalRow k).getD (l + 1) Scalar.zero))
        (fun l => (pascalRow k).getD (l - 1) Scalar.zero + (pascalRow k).getD l Scalar.zero)
        (fun l inside row => ?_) (fun l _ => ?_) (by omega)).trans ?_
      · rw [Nat.add_sub_cancel] at inside ⊢
        simp only [getElem?_filled _ (Nat.lt_succ_self k), Option.bind_eq_bind, Option.bind_some,
          getElem?_pascalRow (Nat.le_of_lt inside), getElem?_pascalRow (Nat.succ_le_of_lt inside)]
        rw [Nat.add_comm 1 l]
      · rw [Nat.add_sub_cancel_left, Nat.add_comm]
      · refine congrArg some (filled_congr fun l _ => ?_)
        have same : (1 ≤ l ∧ l - 1 < k + 1 - 1) ↔ 0 < l ∧ l < k + 1 := by omega
        simp only [same]
  rw [row, Option.bind_eq_bind, Option.bind_some]
  simp [filled, Array.range_succ]

/-- The coalitions that lose, with the rows of a table of binomial coefficients at hand. -/
def complementOf (binomial won : Triangle α) (size : Distribution α) : Option (Triangle α) :=
  collect won.size fun k => do
    let row ← won[k]?
    collect row.size fun l => do
      let x ← row[l]?
      let coefficients ← binomial[k]?
      let coefficient ← coefficients[l]?
      some (coefficient * size.entry k - x)

theorem complementOf_eq {won : Triangle α} (full : won.Full) {n : Nat} (enough : won.size ≤ n + 1)
    (size : Distribution α) : complementOf (pascal n) won size = some (build won.size fun k l =>
      (pascal won.size : Triangle α).entry k l * size.entry k - won.entry k l) := by
  refine collect_eq_some fun k inside => ?_
  have low : k < n + 1 := lt_of_lt_of_le inside enough
  simp only [full.getElem?_row inside, Option.bind_eq_bind, Option.bind_some, size_filled]
  refine collect_eq_some fun l column => ?_
  simp only [getElem?_filled _ column, Option.bind_some, pascal_eq_filled n, getElem?_filled _ low,
    getElem?_pascalRow (Nat.le_of_lt_succ column), entry_pascal_row inside.le]

end Triangle

end Provenance
