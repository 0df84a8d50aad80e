import Provenance.DDnnf.Compiled
import Provenance.Proofs.Outcome
import Provenance.Proofs.Text.Line

/-!
# Telling the two dialects apart

The first line that is no remark tells how a formula is written.  A text that is read as nodes begins with
the header there (`dialectOf_of_nodes`), and a text that is read as a decision graph with some node begins
with a node, for an edge comes behind its ends (`dialectOf_of_graph`).
-/

namespace Provenance.DDnnf

open Provenance.Text

/-- The first line that is no remark, trimmed. -/
def firstLine (text : List Char) : Option (List Char) :=
  ((linesOf '\n' '\r' text).map trim).find? fun line => !line.isEmpty && line.head? != some 'c'

theorem dialectOf_eq (text : String) : dialectOf text =
    match firstLine text.toList with
    | some ('n' :: 'n' :: 'f' :: _) => some .nnf
    | some (letter :: _) => if "oatf".toList.contains letter then some .decisions else none
    | _ => none := rfl

/-! ## Nodes -/

theorem eq_append_of_scanText {expected text rest : List Char}
    (scanned : scanText expected text = some rest) : text = expected ++ rest := by
  induction expected generalizing text with
  | nil => exact Option.some.inj scanned
  | cons e expected ih =>
    cases text with
    | nil => cases scanned
    | cons c text =>
      rw [scanText] at scanned
      split at scanned
      · rename_i same
        rw [beq_iff_eq.1 same, ih scanned]
        rfl
      · cases scanned

/-- A line that is passed over by the reader of nodes is passed over here too. -/
theorem not_first_of_passed {line : List Char}
    (passed : (!allWhite line && line.head? != some 'c') = false) :
    (!(trim line).isEmpty && (trim line).head? != some 'c') = false := by
  cases white : allWhite line with
  | true => rw [trim_of_allWhite white]; rfl
  | false =>
    rw [white, Bool.not_false, Bool.true_and, bne_eq_false_iff_eq] at passed
    obtain ⟨rest, rfl⟩ := List.head?_eq_some_iff.1 passed
    obtain ⟨rest', same⟩ := trimEnd_cons (c := 'c') (by decide) rest
    rw [trim_cons (by decide), same]
    rfl

/-- A text that is read as nodes says so. -/
theorem dialectOf_of_nodes {text : String} {reading : NnfReading}
    (taken : NnfReading.ofText text = .ok reading) : dialectOf text = some .nnf := by
  unfold NnfReading.ofText at taken
  cases content : NnfReading.contentLines text with
  | nil => simp [content] at taken
  | cons head lines =>
    obtain ⟨first, number⟩ := head
    simp only [content, Outcome.bind_eq_ok, Outcome.ofOption_eq_ok] at taken
    obtain ⟨header, scanned, _⟩ := taken
    -- the header starts the line, so nothing is trimmed in front of it
    obtain ⟨rest, starts⟩ : ∃ rest, trimEnd first = "nnf".toList ++ rest := by
      simp only [NnfReading.scanHeader, Option.bind_eq_bind, Option.bind_eq_some_iff] at scanned
      obtain ⟨rest, word, _⟩ := scanned
      exact ⟨rest, eq_append_of_scanText word⟩
    have trimmed : trim first = "nnf".toList ++ rest := by
      obtain ⟨white, whole⟩ := exists_trimEnd_append first
      have begins : first = 'n' :: ('n' :: 'f' :: (rest ++ white)) := by
        rw [whole, starts]
        rfl
      rw [← starts, begins, trim_cons (by decide)]
    have lines_split : ∃ before after, Text.lines text = before ++ first :: after ∧
        ∀ line ∈ before, (!allWhite line && line.head? != some 'c') = false := by
      obtain ⟨before, after, split, passed, _, _⟩ := List.filter_eq_cons_iff.1 content
      refine ⟨before.map Prod.fst, after.map Prod.fst, ?_, fun line listed => ?_⟩
      · have all := congrArg (List.map Prod.fst) split
        simpa using all
      · obtain ⟨entry, member, rfl⟩ := List.mem_map.1 listed
        simpa using passed entry member
    obtain ⟨before, after, split, passed⟩ := lines_split
    have found : firstLine text.toList = some ("nnf".toList ++ rest) := by
      show ((Text.lines text).map trim).find? _ = _
      rw [split, List.map_append, List.find?_append, List.find?_eq_none.2, Option.none_or, List.map_cons,
        trimmed]
      · rfl
      · intro line listed
        obtain ⟨line, member, rfl⟩ := List.mem_map.1 listed
        rw [not_first_of_passed (passed line member)]
        decide
    rw [dialectOf_eq, found]
    rfl

/-! ## Decision graphs -/

/-- A remark on the first line is passed over. -/
theorem firstLine_remark {line : List Char} (whole : '\n' ∉ line) (rest : List Char) :
    firstLine ('c' :: line ++ '\n' :: rest) = firstLine rest := by
  have whole : '\n' ∉ 'c' :: line := fun listed =>
    (List.mem_cons.1 listed).elim (by decide) whole
  have no_return : 'c' ≠ '\r' := by decide
  obtain ⟨line', ended⟩ := dropEnding_cons no_return line
  obtain ⟨line'', trimmed⟩ := trimEnd_cons (c := 'c') (by decide) line'
  rw [firstLine, linesOf_append whole, List.map_cons, ended, trim_cons (by decide), trimmed,
    List.find?_cons_of_neg (by simp)]
  rfl

/-- A first line that starts with another character is the one. -/
theorem firstLine_cons {c : Char} (dark : isWhite c = false) (other : c ≠ 'c') (text : List Char) :
    ∃ line, firstLine (c :: text) = some (c :: line) := by
  have no_feed : c ≠ '\n' := by
    rintro rfl
    exact absurd dark (by decide)
  have no_return : c ≠ '\r' := by
    rintro rfl
    exact absurd dark (by decide)
  have starts : ∃ line others, linesOf '\n' '\r' (c :: text) = (c :: line) :: others := by
    have longer : ∀ {line : List Char}, '\n' ∉ line → '\n' ∉ c :: line := fun whole listed =>
      (List.mem_cons.1 listed).elim (Ne.symm no_feed) whole
    by_cases feed : '\n' ∈ text
    · obtain ⟨line, rest, rfl, whole⟩ := List.eq_append_cons_of_mem feed
      obtain ⟨line', ended⟩ := dropEnding_cons no_return line
      exact ⟨line', _, (linesOf_append (longer whole) rest).trans (by rw [ended])⟩
    · exact ⟨text, [], linesOf_of_notMem (longer feed) (List.cons_ne_nil _ _)⟩
  obtain ⟨line, others, lines⟩ := starts
  obtain ⟨line', trimmed⟩ := trimEnd_cons dark line
  refine ⟨line', ?_⟩
  rw [firstLine, lines, List.map_cons, trim_cons dark, trimmed, List.find?_cons_of_pos (by simp [other])]

/-- As long as no node was read a text goes on with remarks or with a node. -/
theorem firstLine_of_readLines {remaining line : Nat} {text : List Char} {state : DecisionGraph.Reading}
    {graph : DecisionGraph} (taken : DecisionGraph.readLines remaining line text state = .ok graph)
    (none_yet : state.graph.size = 0) (no_numbers : ∀ number : Int, state.nodes[number]? = none)
    (some_node : 0 < graph.size) :
    ∃ letter line, firstLine text = some (letter :: line) ∧ letter ∈ "oatf".toList := by
  induction remaining generalizing line text state with
  | zero =>
    obtain rfl := Except.ok.inj taken
    omega
  | succ remaining ih =>
    cases text with
    | nil =>
      obtain rfl := Except.ok.inj taken
      omega
    | cons first text =>
      simp only [DecisionGraph.readLines, Outcome.bind_eq_ok, Outcome.ofOption_eq_ok] at taken
      obtain ⟨⟨rest, state'⟩, here, ⟨_, rest'⟩, ended, taken⟩ := taken
      have no_edge : ∀ {text}, DecisionGraph.readEdge line text state ≠ .ok (rest, state') := by
        intro text edge
        simp only [DecisionGraph.readEdge, Outcome.bind_eq_ok] at edge
        obtain ⟨_, _, edge⟩ := edge
        split at edge
        · simp [no_numbers] at edge
        · simp at edge
      by_cases remark : first = 'c'
      · subst remark
        have after : rest = text.dropWhile (· != '\n') ∧ state'.graph.size = 0 ∧
            ∀ number : Int, state'.nodes[number]? = none := by
          simp only [DecisionGraph.readLine, DecisionGraph.readRemark] at here
          split at here
          · obtain ⟨rfl, rfl⟩ := Prod.mk.inj (Except.ok.inj here)
            exact ⟨rfl, none_yet, no_numbers⟩
          · simp only [Outcome.bind_eq_ok] at here
            obtain ⟨_, _, here⟩ := here
            split at here
            · simp only [Outcome.bind_eq_ok, Except.ok.injEq] at here
              obtain ⟨_, _, equal⟩ := here
              obtain ⟨rfl, rfl⟩ := Prod.mk.inj equal
              exact ⟨rfl, none_yet, no_numbers⟩
            · simp at here
        obtain ⟨rfl, none_yet, no_numbers⟩ := after
        by_cases feed : '\n' ∈ text
        · obtain ⟨remark, behind, rfl, whole⟩ := List.eq_append_cons_of_mem feed
          have next : (remark ++ '\n' :: behind).dropWhile (· != '\n') = '\n' :: behind := by
            rw [List.dropWhile_append_of_pos]
            · rfl
            · exact fun c listed => bne_iff_ne.2 fun same => whole (same ▸ listed)
          rw [next] at ended
          obtain ⟨_, rfl⟩ := Prod.mk.inj (Option.some.inj ended)
          obtain ⟨letter, line, found, known⟩ := ih taken none_yet no_numbers
          exact ⟨letter, line, (firstLine_remark whole behind).trans found, known⟩
        · -- the remark is the last line, and no node was read
          have nothing : text.dropWhile (· != '\n') = [] :=
            List.dropWhile_eq_nil_iff.2 fun c listed => bne_iff_ne.2 fun same => feed (same ▸ listed)
          rw [nothing] at ended
          obtain ⟨_, rfl⟩ := Prod.mk.inj (Option.some.inj ended)
          have last : state'.graph = graph := by
            cases remaining with
            | zero => exact Except.ok.inj taken
            | succ => exact Except.ok.inj taken
          rw [last] at none_yet
          omega
      · cases kind : DecisionGraph.kindOf? first with
        | none =>
          rw [DecisionGraph.readLine] at here
          · simp only [kind] at here
            exact absurd here no_edge
          · exact remark
        | some kind' =>
          have letter : first ∈ "oatf".toList ∧ isWhite first = false := by
            unfold DecisionGraph.kindOf? at kind
            split at kind
            all_goals first | decide | cases kind
          obtain ⟨line, found⟩ := firstLine_cons letter.2 remark text
          exact ⟨first, line, found, letter.1⟩

/-- A text that is read as a decision graph with some node says so. -/
theorem dialectOf_of_graph {text : String} {graph : DecisionGraph}
    (taken : DecisionGraph.ofText text = .ok graph) (some_node : 0 < graph.size) :
    dialectOf text = some .decisions := by
  obtain ⟨letter, line, found, known⟩ := firstLine_of_readLines taken rfl (fun number => by simp) some_node
  have other : letter ≠ 'n' := by
    rintro rfl
    exact absurd known (by decide)
  rw [dialectOf_eq, found]
  split
  · rename_i same
    exact absurd (List.cons.inj (Option.some.inj same)).1 other
  · rename_i same
    obtain rfl := (List.cons.inj (Option.some.inj same)).1
    rw [if_pos (List.contains_iff_mem.2 known)]
  · rename_i no_letter
    exact absurd rfl (no_letter letter line)

end Provenance.DDnnf
