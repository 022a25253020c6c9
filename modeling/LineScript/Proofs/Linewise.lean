import LineScript.Proofs.Continuation

namespace LineScript

/-- The range some lines further down. -/
def Range.lowered (rows : Nat) (range : Range) : Range :=
  ⟨⟨range.start.line + rows, range.start.column⟩, ⟨range.stop.line + rows, range.stop.column⟩⟩

/-- The token as it stands behind `ids` tokens and `rows` lines: its kind, its text, its gap and its
columns stay. -/
def Token.moved (ids rows : Nat) (token : Token) : Token :=
  { token with id := token.id + ids, range := token.range.lowered rows }

variable (ids rows : Nat)

theorem placeLexemes_moved (row id column : Nat) (lexemes : List Lexeme) :
    placeLexemes (row + rows) (id + ids) column lexemes =
      (placeLexemes row id column lexemes).map (Token.moved ids rows) := by
  induction lexemes generalizing id column with
  | nil => rfl
  | cons lexeme rest ih =>
    rw [placeLexemes, placeLexemes, List.map_cons, ← ih, Nat.add_right_comm id ids 1]
    rfl

theorem lineTokens_moved (id row : Nat) (line : List Char) :
    lineTokens (id + ids) (row + rows) line = (lineTokens id row line).map (Token.moved ids rows) := by
  cases line with
  | nil => rfl
  | cons c rest =>
    have filled := List.cons_ne_nil c rest
    rw [lineTokens_of_ne_nil filled, lineTokens_of_ne_nil filled, List.map_append, placeLexemes_moved,
      Nat.add_right_comm id ids]
    rfl

/-- No line knows what stands before it, but for the numbers that its tokens get. -/
theorem linesTokens_moved (id row : Nat) (lines : List (List Char)) :
    linesTokens (id + ids) (row + rows) lines =
      (linesTokens id row lines).map (Token.moved ids rows) := by
  induction lines generalizing id row with
  | nil => rfl
  | cons line rest ih =>
    rw [linesTokens, linesTokens, List.map_append, lineTokens_moved, List.length_map, ← ih,
      Nat.add_right_comm id ids, Nat.add_right_comm row rows]

/-- The tokens of a text behind another one are its own tokens, moved by what the other one has. -/
theorem tokensBehind_eq (first second : String) :
    tokensBehind first second = (linesTokens 0 0 (splitLines second.toList)).map
      (Token.moved (linesTokens 0 0 (splitLines first.toList)).length (splitLines first.toList).length) := by
  rw [← linesTokens_moved, Nat.zero_add, Nat.zero_add, tokensBehind]

theorem tokensBehind_length (first second : String) :
    (tokensBehind first second).length = (linesTokens 0 0 (splitLines second.toList)).length := by
  rw [tokensBehind_eq, List.length_map]

/-- The end of the file, at the end of the last of some lines. -/
def endToken (id : Nat) (lines : List (List Char)) : Token :=
  ⟨id, .endOfFile, "", .point ⟨(lines.length - 1 : Nat), (lines.getLast?.getD []).length⟩, ""⟩

theorem tokenize_eq_append_endToken (source : String) :
    tokenize source = linesTokens 0 0 (splitLines source.toList) ++
      [endToken (linesTokens 0 0 (splitLines source.toList)).length (splitLines source.toList)] :=
  rfl

/-- Lines that come first move the end of the file like any other token. -/
theorem endToken_moved (id : Nat) (first : List (List Char)) {lines : List (List Char)}
    (filled : lines ≠ []) :
    endToken (id + ids) (first ++ lines) = (endToken id lines).moved ids first.length := by
  have last : (first ++ lines).getLast?.getD [] = lines.getLast?.getD [] := by
    rw [List.getLast?_append_of_ne_nil first filled]
  have row : (first ++ lines).length - 1 = lines.length - 1 + first.length := by
    have positive := List.length_pos_iff.mpr filled
    rw [List.length_append]
    omega
  rw [endToken, last, row]
  rfl

/-- A text that is put behind another one on a line of its own is read as if it stood alone. The tokens
of the first text stay, without their end of the file, and those of the second only move. -/
theorem tokenize_joins_texts {first : String} (closed : first.toList.getLast? ≠ some '\r')
    (second : String) :
    (∃ eof, eof.kind = .endOfFile ∧ tokenize first = (tokenize first).dropLast ++ [eof]) ∧
      tokenize (first ++ "\n" ++ second) = (tokenize first).dropLast ++
        (tokenize second).map (Token.moved ((tokenize first).length - 1) (linesOf first).length) := by
  have front : (tokenize first).dropLast = linesTokens 0 0 (splitLines first.toList) := by
    rw [tokenize_eq_append_endToken, List.dropLast_concat]
  have count : (tokenize first).length - 1 = (linesTokens 0 0 (splitLines first.toList)).length := by
    rw [← front, List.length_dropLast]
  have rows : (linesOf first).length = (splitLines first.toList).length := List.length_map _
  obtain ⟨eof, last, whole⟩ := tokenize_eq first
  refine ⟨⟨eof, last, front ▸ whole⟩, ?_⟩
  obtain ⟨line, others, split⟩ := splitLines_eq_cons second.toList
  have filled : splitLines second.toList ≠ [] := by simp [split]
  rw [front, count, rows, tokenize_eq_append_endToken second, List.map_append, ← tokensBehind_eq,
    tokenize_eq_append_endToken, linesTokens_joined closed, splitLines_joined closed,
    List.length_append, tokensBehind_length, Nat.add_comm, endToken_moved _ _ _ filled,
    List.append_assoc]
  rfl

/-- Empty lines stand on both sides of the join, and carriage returns behind it. -/
theorem tokenize_joins_texts_around_empty_lines :
    "a\n".toList.getLast? ≠ some '\r' ∧
      tokenize ("a\n" ++ "\n" ++ "\r\n\r b") =
        (tokenize "a\n").dropLast ++ (tokenize "\r\n\r b").map (Token.moved 2 2) ∧
      (tokenize ("a\n" ++ "\n" ++ "\r\n\r b")).map (fun token => (token.id, token.kind, token.line)) =
        [(0, .name, 0), (1, .endOfLine, 0), (2, .invalid, 3), (3, .name, 3), (4, .endOfLine, 3),
          (5, .endOfFile, 3)] := by
  have closed : "a\n".toList.getLast? ≠ some '\r' := by decide
  have count : (tokenize "a\n").length - 1 = 2 := by decide +kernel
  have rows : (linesOf "a\n").length = 2 := by decide
  have joined := (tokenize_joins_texts closed "\r\n\r b").2
  rw [count, rows] at joined
  exact ⟨closed, joined, by decide +kernel⟩

end LineScript
