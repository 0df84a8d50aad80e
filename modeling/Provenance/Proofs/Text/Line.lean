import Mathlib.Data.List.Forall2
import Mathlib.Data.List.TakeWhile
import Provenance.Text.Blank
import Provenance.Text.Line

/-!
# Lines

The first line of a text is what stands before the first line feed (`linesOf_append`).  All lines are the pieces
between line feeds, but for a carriage return at the end of a piece and for a last piece that is empty
(`forall₂_linesOf`).  Trimming keeps a character at the start that is no white space (`trim_cons`).
-/

namespace Provenance.Text

variable {α : Type} [BEq α] [LawfulBEq α] {feed ret : α} {line : List α}

/-! ## Lines -/

/-- What has no line feed belongs to the current line. -/
theorem cutFrom_append (whole : feed ∉ line) (current rest : List α) :
    cutFrom feed current (line ++ rest) = cutFrom feed (line.reverse ++ current) rest := by
  induction line generalizing current with
  | nil => rfl
  | cons a line ih =>
    obtain ⟨different, whole⟩ := not_or.1 (mt List.mem_cons.2 whole)
    rw [List.cons_append, cutFrom, if_neg (by simpa using Ne.symm different), ih whole, List.reverse_cons,
      List.append_assoc]
    rfl

omit [LawfulBEq α] in
theorem cutFrom_ne_nil (current text : List α) : cutFrom feed current text ≠ [] := by
  induction text generalizing current with
  | nil => simp [cutFrom]
  | cons a rest ih =>
    rw [cutFrom]
    split
    · simp
    · exact ih _

/-- The first line is what stands before the first line feed. -/
theorem linesOf_append (whole : feed ∉ line) (rest : List α) :
    linesOf feed ret (line ++ feed :: rest) = dropEnding ret line :: linesOf feed ret rest := by
  have some_piece : cutFrom feed [] rest ≠ [] := cutFrom_ne_nil [] rest
  obtain ⟨first, others, pieces⟩ := List.exists_cons_of_ne_nil some_piece
  have cut : cutFrom feed [] (line ++ feed :: rest) = line :: cutFrom feed [] rest := by
    rw [cutFrom_append whole, cutFrom, if_pos (beq_self_eq_true feed), List.append_nil, List.reverse_reverse]
  simp only [linesOf, cut, pieces, List.dropLast_cons_cons, List.map_cons, List.getLast?_cons_cons]
  split <;> rfl

/-- A text without line feed is one line. -/
theorem linesOf_of_notMem (whole : feed ∉ line) (some_character : line ≠ []) :
    linesOf feed ret line = [line] := by
  have cut : cutFrom feed [] line = [line] := by simpa [cutFrom] using cutFrom_append whole [] []
  obtain ⟨a, rest, rfl⟩ := List.exists_cons_of_ne_nil some_character
  simp [linesOf, cut]

/-- Dropping the ending keeps a first character that is another one. -/
theorem dropEnding_cons {a : α} (different : a ≠ ret) (rest : List α) :
    ∃ rest', dropEnding ret (a :: rest) = a :: rest' := by
  rcases List.eq_nil_or_concat rest with rfl | ⟨rest, last, rfl⟩
  · exact ⟨[], by simp [dropEnding, different]⟩
  · refine ⟨if last == ret then rest else rest ++ [last], ?_⟩
    simp only [dropEnding, List.reverse_cons, List.concat_eq_append, List.reverse_append,
      List.reverse_nil, List.nil_append, List.cons_append]
    split
    · simp
    · simp

/-! ## All lines -/

omit [LawfulBEq α] in
/-- The pieces are those between the separators. -/
theorem cutFrom_eq_splitOn (current text : List α) :
    cutFrom feed current text = (text.splitOn feed).modifyHead (current.reverse ++ ·) := by
  induction text generalizing current with
  | nil => simp [cutFrom]
  | cons a rest ih =>
    obtain ⟨first, others, pieces⟩ := List.exists_cons_of_ne_nil (List.splitOn_ne_nil feed rest)
    rw [cutFrom, List.splitOn_cons_eq_if_modifyHead]
    split
    · rw [ih, pieces]
      simp
    · rw [ih, pieces]
      simp

/-- An ending is dropped, or there is none. -/
theorem dropEnding_cases (ret : α) (piece : List α) :
    piece = dropEnding ret piece ∨ piece = dropEnding ret piece ++ [ret] := by
  rcases List.eq_nil_or_concat piece with rfl | ⟨rest, last, rfl⟩
  · exact Or.inl rfl
  · by_cases same : last = ret
    · exact Or.inr (by simp [dropEnding, same])
    · exact Or.inl (by simp [dropEnding, same])

/-- The lines are the pieces between line feeds, without the carriage return at the end; a last piece that is
empty is no line. -/
theorem forall₂_linesOf (feed ret : α) (text : List α) :
    ∃ pieces, (text.splitOn feed = pieces ∨ text.splitOn feed = pieces ++ [[]]) ∧
      List.Forall₂ (fun piece line => piece = line ∨ piece = line ++ [ret]) pieces (linesOf feed ret text) := by
  have cut : cutFrom feed [] text = text.splitOn feed := by
    rw [cutFrom_eq_splitOn]
    exact List.modifyHead_id ▸ rfl
  obtain ⟨ended, last, pieces⟩ := (List.eq_nil_or_concat (text.splitOn feed)).resolve_left
    (List.splitOn_ne_nil feed text)
  rw [List.concat_eq_append] at pieces
  have dropped : List.Forall₂ (fun piece line => piece = line ∨ piece = line ++ [ret]) ended
      (ended.map (dropEnding ret)) :=
    List.forall₂_map_right_iff.2 (List.forall₂_same.2 fun piece _ => dropEnding_cases ret piece)
  simp only [linesOf, cut, pieces, List.dropLast_concat, List.getLast?_append, List.getLast?_singleton,
    Option.some_or]
  cases last with
  | nil => exact ⟨ended, Or.inr rfl, dropped⟩
  | cons a rest => exact ⟨ended ++ [a :: rest], Or.inl rfl, List.rel_append dropped (.cons (Or.inl rfl) .nil)⟩

/-! ## Trimming -/

theorem trimEnd_cons {c : Char} (dark : isWhite c = false) (rest : List Char) :
    ∃ rest', trimEnd (c :: rest) = c :: rest' := by
  rw [trimEnd, List.reverse_cons, List.dropWhile_append]
  split
  · exact ⟨[], by simp [dark]⟩
  · exact ⟨(rest.reverse.dropWhile isWhite).reverse, by simp⟩

theorem exists_trimEnd_append (text : List Char) : ∃ white, text = trimEnd text ++ white := by
  refine ⟨(text.reverse.takeWhile isWhite).reverse, ?_⟩
  rw [trimEnd, ← List.reverse_append, List.takeWhile_append_dropWhile, List.reverse_reverse]

/-- Trimming keeps a first character that is no white space. -/
theorem trim_cons {c : Char} (dark : isWhite c = false) (rest : List Char) :
    trim (c :: rest) = trimEnd (c :: rest) := by
  rw [trim, trimStart, List.dropWhile_cons_of_neg (by simp [dark])]

theorem trim_of_allWhite {line : List Char} (white : allWhite line = true) : trim line = [] := by
  have nothing : trimStart line = [] := List.dropWhile_eq_nil_iff.2 (List.all_eq_true.1 white)
  rw [trim, nothing]
  rfl

end Provenance.Text
