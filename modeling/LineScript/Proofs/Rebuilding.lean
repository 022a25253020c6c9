import LineScript.Proofs.Placement

namespace LineScript

/-- The tokens that stand on a line. The end of the file is no part of its line. -/
def onLine (row : Int) (tokens : List Token) : List Token :=
  tokens.filter fun token => token.kind ≠ .endOfFile ∧ token.line = row

/-- The characters of some tokens and of the gaps before them. -/
def written (tokens : List Token) : List Char :=
  tokens.flatMap fun token => token.gap.toList ++ token.text.toList

/-- What falls to each of the first lines. -/
def writtenLines (count : Nat) (tokens : List Token) : List (List Char) :=
  (List.range count).map fun (row : Nat) => written (onLine row tokens)

theorem onLine_append (row : Int) (first second : List Token) :
    onLine row (first ++ second) = onLine row first ++ onLine row second :=
  List.filter_append ..

theorem onLine_eq_nil {row : Int} {tokens : List Token}
    (elsewhere : ∀ token ∈ tokens, token.line ≠ row) : onLine row tokens = [] := by
  refine List.filter_eq_nil_iff.mpr fun token member => ?_
  simp [elsewhere token member]

/-- A token that has a place among the lines is added to its line. -/
theorem rebuildWith_eq {lines : List String} {token : Token} (inner : token.kind ≠ .endOfFile)
    {row : Nat} (place : token.line = row) (bound : row < lines.length) :
    rebuildWith lines token = .ok (lines.modify row (· ++ (token.gap ++ token.text))) := by
  simp only [rebuildWith, if_neg inner, place, slot?_natCast, if_pos bound]

/-- Writing tokens back gives each line what stands on it, in the order of the tokens. -/
theorem foldlM_rebuildWith {tokens : List Token} {lines : List String}
    (placed : ∀ token ∈ tokens, token.kind ≠ .endOfFile →
      ∃ row : Nat, token.line = row ∧ row < lines.length) :
    tokens.foldlM rebuildWith lines =
      .ok (lines.mapIdx fun row line => line ++ String.ofList (written (onLine row tokens))) := by
  induction tokens generalizing lines with
  | nil =>
    refine congrArg Except.ok (List.ext_getElem (by simp) fun row _ _ => ?_)
    simp [onLine, written]
  | cons token rest ih =>
    rw [List.forall_mem_cons] at placed
    rw [List.foldlM_cons]
    by_cases ending : token.kind = .endOfFile
    · have step : rebuildWith lines token = .ok lines := if_pos ending
      have same (row : Nat) : onLine row (token :: rest) = onLine row rest := by
        simp [onLine, ending]
      simp only [step, same]
      exact ih placed.2
    · obtain ⟨row, place, bound⟩ := placed.1 ending
      rw [rebuildWith_eq ending place bound]
      have later := @ih (lines.modify row (· ++ (token.gap ++ token.text))) (by simpa using placed.2)
      refine later.trans (congrArg Except.ok ?_)
      apply List.ext_getElem (by simp)
      intro other _ _
      by_cases here : row = other
      · have both : onLine other (token :: rest) = token :: onLine other rest := by
          simp [onLine, ending, place, here]
        simp [both, written, here, String.append_assoc]
      · have away : token.line ≠ other := by omega
        have same : onLine other (token :: rest) = onLine other rest := by
          simp [onLine, away]
        simp [same, here]

/-- The lines that tokens are written back into. -/
theorem rebuildLines_eq {tokens : List Token} {count : Nat}
    (placed : ∀ token ∈ tokens, token.kind ≠ .endOfFile →
      ∃ row : Nat, token.line = row ∧ row < count) :
    rebuildLines tokens count = .ok ((writtenLines count tokens).map String.ofList) := by
  rw [rebuildLines, Int.toNat_natCast, foldlM_rebuildWith (by simpa using placed)]
  refine congrArg Except.ok (List.ext_getElem (by simp [writtenLines]) ?_)
  intro row _ _
  simp [writtenLines]

theorem onLine_lineTokens (id row : Nat) (line : List Char) :
    onLine row (lineTokens id row line) = lineTokens id row line := by
  refine List.filter_eq_self.mpr fun token member => ?_
  obtain ⟨piece, eol | ⟨_, admitted⟩⟩ := mem_lineTokens member
  · simp [eol, Token.line, piece.line.1]
  · simp [admitted.inner.2, Token.line, piece.line.1]

/-- What stands on a line of a text is read off that line. -/
theorem onLine_linesTokens {lines : List (List Char)} {place : Nat} {line : List Char}
    (found : lines[place]? = some line) (id row : Nat) :
    ∃ first, onLine (row + place : Nat) (linesTokens id row lines) =
      lineTokens first (row + place) line := by
  induction lines generalizing id row place with
  | nil => cases found
  | cons top rest ih =>
    rw [linesTokens, onLine_append]
    cases place with
    | zero =>
      obtain rfl : line = top := (Option.some.inj found).symm
      have others : onLine (row + 0 : Nat)
          (linesTokens (id + (lineTokens id row line).length) (row + 1) rest) = [] := by
        refine onLine_eq_nil fun token member => ?_
        obtain ⟨_, _, _, piece, _⟩ := mem_linesTokens member
        have below := piece.line.1
        simp only [Token.line]
        omega
      exact ⟨id, by rw [others, List.append_nil, Nat.add_zero, onLine_lineTokens]⟩
    | succ place =>
      have before : onLine (row + (place + 1) : Nat) (lineTokens id row top) = [] := by
        refine onLine_eq_nil fun token member => ?_
        have above := (mem_lineTokens member).1.line.1
        simp only [Token.line]
        omega
      obtain ⟨first, here⟩ := ih found (id + (lineTokens id row top).length) (row + 1)
      rw [Nat.add_right_comm, Nat.add_assoc] at here
      exact ⟨first, by rw [before, List.nil_append, here]⟩

theorem onLine_tokenize {source : String} {row : Nat} {line : List Char}
    (found : (splitLines source.toList)[row]? = some line) :
    ∃ first, onLine row (tokenize source) = lineTokens first row line := by
  obtain ⟨eof, last, tokens⟩ := tokenize_eq source
  obtain ⟨first, here⟩ := onLine_linesTokens found 0 0
  rw [Nat.zero_add] at here
  have ending : onLine row [eof] = [] := by simp [onLine, last]
  exact ⟨first, by rw [tokens, onLine_append, here, ending, List.append_nil]⟩

/-- A line with any character holds its lexemes, then its end. -/
theorem exists_onLine_tokenize {source : String} {row : Nat} {line : List Char}
    (found : (splitLines source.toList)[row]? = some line) (filled : line ≠ []) :
    ∃ body eol, onLine row (tokenize source) = body ++ [eol] ∧ eol.kind = .endOfLine ∧
      eol.text = "" ∧ body.map Token.lexeme = (scanLine line).1 ∧
      eol.gap.toList = (scanLine line).2 := by
  obtain ⟨first, here⟩ := onLine_tokenize found
  rw [lineTokens_of_ne_nil filled] at here
  exact ⟨_, _, here, rfl, rfl, placeLexemes_lexemes .., String.toList_ofList⟩

/-- The characters of a line's tokens are those of its lexemes. -/
theorem written_eq_spelled {body : List Token} {eol : Token} (empty : eol.text = "") :
    written (body ++ [eol]) = spelled (body.map Token.lexeme) eol.gap.toList := by
  induction body with
  | nil => simp [written, spelled, empty]
  | cons token rest ih =>
    rw [List.cons_append, written, List.flatMap_cons, ← written, ih, List.map_cons, spelled]
    simp [Token.lexeme]

/-- Every character of a line is in one of its tokens or in the gap before one. -/
theorem written_onLine_tokenize {source : String} {row : Nat} {line : List Char}
    (found : (splitLines source.toList)[row]? = some line) :
    written (onLine row (tokenize source)) = line := by
  by_cases filled : line = []
  · subst filled
    obtain ⟨first, here⟩ := onLine_tokenize found
    rw [here]
    rfl
  · obtain ⟨body, eol, here, _, empty, lexemes, trail⟩ := exists_onLine_tokenize found filled
    rw [here, written_eq_spelled empty, lexemes, trail, (scanLine_lawful line).2]

theorem tokenize_placed {source : String} {token : Token} (member : token ∈ tokenize source)
    (inner : token.kind ≠ .endOfFile) :
    ∃ row : Nat, token.line = row ∧ row < (linesOf source).length := by
  obtain ⟨row, _, found, piece, _⟩ := mem_linesTokens (mem_linesTokens_of_mem member inner)
  obtain ⟨bound, _⟩ := List.getElem?_eq_some_iff.mp found
  rw [Nat.zero_add] at piece
  exact ⟨row, piece.line.1, by simpa [linesOf] using bound⟩

theorem writtenLines_tokenize (source : String) :
    writtenLines (linesOf source).length (tokenize source) = splitLines source.toList := by
  refine List.ext_getElem (by simp [writtenLines, linesOf]) fun row _ inside => ?_
  simpa [writtenLines] using written_onLine_tokenize (List.getElem?_eq_getElem inside)

/-- No character of a text is lost: its tokens, written back with their gaps, give all its lines. -/
theorem rebuildLines_tokenize (source : String) :
    rebuildLines (tokenize source) (linesOf source).length = .ok (linesOf source) := by
  rw [rebuildLines_eq fun token member inner => tokenize_placed member inner, writtenLines_tokenize]
  rfl

end LineScript
