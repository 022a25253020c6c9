import LineScript.Proofs.Edits
import LineScript.Proofs.Rebuilding

namespace LineScript

/-- The characters of a line from one column up to another. -/
def slice (line : String) (start stop : Nat) : String :=
  String.ofList ((line.toList.take stop).drop start)

/-- Tokens, each one with the gap before it, fill a line between two columns. -/
def Tiles (row : Nat) (line : String) : Nat → List Token → Nat → Prop
  | start, [], stop => start = stop
  | start, token :: rest, stop =>
    let left := start + token.gap.length
    let right := left + token.text.length
    token.range = ⟨⟨row, left⟩, ⟨row, right⟩⟩ ∧ (∀ c ∈ token.gap.toList, c = ' ') ∧
      token.gap = slice line start left ∧ token.text = slice line left right ∧
      Tiles row line right rest stop

theorem slice_eq {line : String} {before text after : List Char}
    (whole : line.toList = before ++ (text ++ after)) :
    slice line before.length (before.length + text.length) = String.ofList text := by
  rw [slice, whole, ← List.append_assoc, ← List.length_append, List.take_left, List.drop_left]

/-- A token that is placed behind what is filled already goes on filling the line. -/
theorem Tiles.cons {row stop : Nat} {line : String} {token : Token} {rest : List Token}
    {before after : List Char}
    (whole : line.toList = before ++ (token.gap.toList ++ (token.text.toList ++ after)))
    (range : token.range = .ofText ⟨row, (before.length + token.gap.length : Nat)⟩ token.text)
    (spaces : ∀ c ∈ token.gap.toList, isSpace c)
    (later : Tiles row line (before.length + token.gap.length + token.text.length) rest stop) :
    Tiles row line before.length (token :: rest) stop := by
  have gap := slice_eq whole
  rw [← List.append_assoc] at whole
  have text := slice_eq whole
  rw [String.ofList_toList, String.length_toList] at gap text
  rw [List.length_append, String.length_toList] at text
  refine ⟨range, fun c member => ?_, gap.symm, text.symm, later⟩
  exact of_decide_eq_true (spaces c member)

theorem Tiles.append {row start middle stop : Nat} {line : String} {first second : List Token}
    (front : Tiles row line start first middle) (back : Tiles row line middle second stop) :
    Tiles row line start (first ++ second) stop := by
  induction first generalizing start with
  | nil => exact front.symm ▸ back
  | cons token rest ih =>
    obtain ⟨range, spaces, gap, text, later⟩ := front
    exact ⟨range, spaces, gap, text, ih later⟩

/-- Lexemes that are placed on their line fill it up to the spaces at its end. -/
theorem placeLexemes_tiles {line : String} {lexemes : List Lexeme} {before trail : List Char}
    (whole : line.toList = before ++ spelled lexemes trail) (lawful : Lawful lexemes trail)
    (row id : Nat) :
    Tiles row line before.length (placeLexemes row id before.length lexemes)
      (line.length - trail.length) := by
  induction lexemes generalizing before id with
  | nil =>
    have length := congrArg List.length whole
    rw [String.length_toList, List.length_append, spelled] at length
    have last : before.length = line.length - trail.length := by omega
    exact last
  | cons lexeme rest ih =>
    obtain ⟨spaces, _, lawful⟩ := lawful
    have front : (before ++ (lexeme.gap ++ lexeme.text)).length =
        before.length + lexeme.gap.length + lexeme.text.length := by
      rw [List.length_append, List.length_append, Nat.add_assoc]
    have behind := @ih (before ++ (lexeme.gap ++ lexeme.text)) (by simpa [spelled] using whole) lawful
      (id + 1)
    rw [front] at behind
    refine @Tiles.cons row _ line _ _ before (spelled rest trail) ?_ ?_ ?_ ?_
    · simpa [spelled] using whole
    · simp
    · simpa using spaces
    · simpa using behind

theorem spelled_eq_append (lexemes : List Lexeme) (trail : List Char) :
    spelled lexemes trail = spelled lexemes [] ++ trail := by
  induction lexemes with
  | nil => rfl
  | cons lexeme rest ih => rw [spelled, spelled, ih, List.append_assoc, List.append_assoc]

theorem Lawful.trail_spaces {lexemes : List Lexeme} {trail : List Char}
    (lawful : Lawful lexemes trail) : ∀ c ∈ trail, isSpace c := by
  induction lexemes with
  | nil => exact lawful
  | cons lexeme rest ih => exact ih lawful.2.2

/-- A line is filled by its tokens. Behind the spaces at its end stands the end of the line. -/
theorem lineTokens_tiles (id row : Nat) (line : List Char) :
    Tiles row (String.ofList line) 0 (lineTokens id row line) line.length := by
  obtain ⟨lawful, spell⟩ := scanLine_lawful line
  by_cases empty : line = []
  · rw [empty]
    rfl
  rw [lineTokens_of_ne_nil empty]
  have spelling : (String.ofList line).toList = [] ++ spelled (scanLine line).1 (scanLine line).2 := by
    rw [String.toList_ofList, spell, List.nil_append]
  refine (placeLexemes_tiles spelling lawful row id).append ?_
  have whole := (spelled_eq_append (scanLine line).1 (scanLine line).2).symm.trans spell
  have length := congrArg List.length whole
  rw [List.length_append] at length
  have start : (String.ofList line).length - (scanLine line).2.length =
      (spelled (scanLine line).1 []).length := by
    rw [String.length_ofList]
    omega
  rw [start]
  refine @Tiles.cons _ _ _ _ _ _ [] ?_ ?_ ?_ ?_
  · simpa using whole.symm
  · simp [Range.ofText, Range.point, Position.advance, ← length]
  · simpa using lawful.trail_spaces
  · simpa [Tiles] using length

theorem lineTokens_getLast? {id row : Nat} {line : List Char} {last : Token}
    (found : (lineTokens id row line).getLast? = some last) : last.kind = .endOfLine := by
  cases line with
  | nil => cases found
  | cons c more =>
    rw [lineTokens_of_ne_nil (List.cons_ne_nil c more), List.getLast?_concat] at found
    cases found
    rfl

theorem linesTokens_getLast? {id row : Nat} {lines : List (List Char)} {last : Token}
    (found : (linesTokens id row lines).getLast? = some last) : last.kind = .endOfLine := by
  induction lines generalizing id row with
  | nil => cases found
  | cons line rest ih =>
    rw [linesTokens, List.getLast?_append, Option.or_eq_some_iff] at found
    rcases found with later | ⟨_, here⟩
    · exact ih later
    · exact lineTokens_getLast? here

/-- On a line each token starts behind the start of the one before. -/
theorem lineTokens_rising (id row : Nat) (line : List Char) :
    (lineTokens id row line).Pairwise (·.range.start < ·.range.start) := by
  by_cases filled : line = []
  · rw [filled]
    exact .nil
  · have ordered := lineTokens_ordered id row line
    have wide (token : Token) (member : token ∈ placeLexemes row id 0 (scanLine line).1) :
        token.range.start < token.range.stop := by
      have inside : token ∈ linesTokens id row [line] := by
        rw [linesTokens, lineTokens_of_ne_nil filled]
        exact List.mem_append_left _ (List.mem_append_left _ member)
      exact (linesTokens_wide inside (placeLexemes_inner member)).2
    rw [lineTokens_of_ne_nil filled, List.pairwise_append] at ordered ⊢
    obtain ⟨front, back, across⟩ := ordered
    refine ⟨front.imp_of_mem fun {first second} member _ order => ?_, List.pairwise_singleton _ _, ?_⟩
    · exact Position.lt_of_lt_of_le (wide first member) order
    · intro token member eol last
      exact Position.lt_of_lt_of_le (wide token member) (across token member eol last)

theorem linesTokens_rising (id row : Nat) (lines : List (List Char)) :
    (linesTokens id row lines).Pairwise (·.range.start < ·.range.start) := by
  induction lines generalizing id row with
  | nil => exact .nil
  | cons line rest ih =>
    refine List.pairwise_append.mpr ⟨lineTokens_rising id row line, ih _ _, ?_⟩
    intro token here other later
    obtain ⟨_, _, _, piece, _⟩ := mem_linesTokens later
    have above := (mem_lineTokens here).1.line.1
    have below := piece.line.1
    exact Position.lt_iff.mpr (.inl (by omega))

/-- What stands on a line of a text are the tokens of that line. -/
theorem filter_line_linesTokens {lines : List (List Char)} {row : Nat} {line : List Char}
    (found : lines[row]? = some line) :
    ∃ first, (linesTokens 0 0 lines).filter (·.line = (row : Int)) = lineTokens first row line := by
  obtain ⟨first, here⟩ := onLine_linesTokens found 0 0
  rw [Nat.zero_add] at here
  refine ⟨first, here ▸ List.filter_congr fun token member => ?_⟩
  simp [linesTokens_inner token member]

/-- The end of the file takes up no room at the end of its line. -/
theorem tiles_point {row : Nat} {line : String} {eof : Token} (text : eof.text = "") (gap : eof.gap = "")
    (range : eof.range = .point ⟨row, line.length⟩) :
    Tiles row line line.length [eof] line.length := by
  have place : eof.range = .ofText ⟨row, (line.toList.length + eof.gap.length : Nat)⟩ eof.text := by
    simp [range, text, gap, Range.ofText, Range.point, Position.advance, String.length_toList]
  have done : Tiles row line (line.toList.length + eof.gap.length + eof.text.length) [] line.length := by
    simp [text, gap, Tiles, String.length_toList]
  have filled := @Tiles.cons row line.length line eof [] line.toList [] (by simp [text, gap]) place
    (by simp [gap]) done
  rwa [String.length_toList] at filled

/-- How tokens fill the lines of a text: each line those of `body` that are on it, and the last line
also the end of the file. -/
structure FillsText (lines : List String) (body : List Token) (eof : Token) : Prop where
  numbered : ∀ (place : Nat) token, (body ++ [eof])[place]? = some token → token.id = place
  inner : ∀ token ∈ body, token.kind ≠ .endOfFile
  last : eof.kind = .endOfFile
  atEnd : ∃ line, lines.getLast? = some line ∧
    eof.range = .point ⟨(lines.length - 1 : Nat), line.length⟩
  placed : ∀ token ∈ body, ∃ (row : Nat) (line : String), lines[row]? = some line ∧ line ≠ "" ∧
    token.range.start.line = row ∧ token.range.stop.line = row
  tiles : ∀ (row : Nat) line, lines[row]? = some line →
    Tiles row line 0 ((body ++ [eof]).filter (·.line = (row : Int))) line.length
  ends : ∀ (row : Nat) line, lines[row]? = some line → line ≠ "" →
    ∃ front eol, body.filter (·.line = (row : Int)) = front ++ [eol] ∧ eol.kind = .endOfLine ∧
      eol.range = .point ⟨row, line.length⟩ ∧ ∀ token ∈ front, token.kind ≠ .endOfLine
  empty : ∀ (row : Nat), lines[row]? = some "" → body.filter (·.line = (row : Int)) = []
  filled : ∀ token ∈ body, token.kind ≠ .endOfLine → token.text ≠ ""
  rising : body.Pairwise (·.range.start < ·.range.start)
  meets : ∀ token ∈ body, token.range.start < eof.range.start ∨
    body.getLast? = some token ∧ token.kind = .endOfLine ∧ token.range.start = eof.range.start

theorem exists_of_linesOf {source : String} {row : Nat} {line : String}
    (found : (linesOf source)[row]? = some line) :
    ∃ chars, (splitLines source.toList)[row]? = some chars ∧ line = String.ofList chars := by
  rw [linesOf, List.getElem?_map, Option.map_eq_some_iff] at found
  obtain ⟨chars, here, rfl⟩ := found
  exact ⟨chars, here, rfl⟩

/-- The end of the file stands at the end of the last line. -/
theorem exists_eof (source : String) : ∃ eof line,
    tokenize source = linesTokens 0 0 (splitLines source.toList) ++ [eof] ∧ eof.kind = .endOfFile ∧
      eof.text = "" ∧ eof.gap = "" ∧ (linesOf source).getLast? = some line ∧
      eof.range = .point ⟨((linesOf source).length - 1 : Nat), line.length⟩ := by
  obtain ⟨first, rest, split⟩ := splitLines_eq_cons source.toList
  have filled : splitLines source.toList ≠ [] := by simp [split]
  have last := List.getLast?_eq_some_getLast filled
  refine ⟨_, String.ofList ((splitLines source.toList).getLast filled), rfl, rfl, rfl, rfl, ?_, ?_⟩
  · rw [linesOf, List.getLast?_map, last, Option.map_some]
  · rw [linesOf, List.length_map, last, Option.getD_some, String.length_ofList]

/-- The tokens on each line of a text fill it, also with the end of the file among them. -/
theorem tokenize_tiles_line {source : String} {row : Nat} {line : String}
    (found : (linesOf source)[row]? = some line) :
    Tiles row line 0 ((tokenize source).filter (·.line = (row : Int))) line.length := by
  obtain ⟨eof, final, tokens, _, text, gap, last, range⟩ := exists_eof source
  obtain ⟨chars, here, rfl⟩ := exists_of_linesOf found
  obtain ⟨first, body⟩ := filter_line_linesTokens here
  have filled := lineTokens_tiles first row chars
  have place : eof.line = ((linesOf source).length - 1 : Nat) := congrArg (·.start.line) range
  rw [tokens, List.filter_append, body, String.length_ofList]
  by_cases ending : row = (linesOf source).length - 1
  · rw [List.getLast?_eq_getElem?, ← ending, found] at last
    rw [← Option.some.inj last, ← ending] at range
    have point := tiles_point text gap range
    rw [String.length_ofList] at point
    rw [List.filter_cons_of_pos (by simp [place, ending]), List.filter_nil]
    exact filled.append point
  · rw [List.filter_cons_of_neg (by simp only [place, decide_eq_true_eq]; omega), List.filter_nil,
      List.append_nil]
    exact filled

/-- A line with any character ends in the one end of line that is on it. -/
theorem linesTokens_ends {lines : List (List Char)} {row : Nat} {line : List Char}
    (found : lines[row]? = some line) (filled : line ≠ []) :
    ∃ front eol, (linesTokens 0 0 lines).filter (·.line = (row : Int)) = front ++ [eol] ∧
      eol.kind = .endOfLine ∧ eol.range = .point ⟨row, line.length⟩ ∧
      ∀ token ∈ front, token.kind ≠ .endOfLine := by
  obtain ⟨first, tokens⟩ := filter_line_linesTokens found
  rw [lineTokens_of_ne_nil filled] at tokens
  exact ⟨_, _, tokens, rfl, rfl, fun token member => placeLexemes_inner member⟩

/-- Only the last token before the end of the file can start where that does. -/
theorem start_lt_end_or_last {body : List Token} {eof token : Token} (tiled : Tiled (body ++ [eof]))
    (rising : body.Pairwise (·.range.start < ·.range.start)) (member : token ∈ body) :
    token.range.start < eof.range.start ∨
      body.getLast? = some token ∧ token.range.start = eof.range.start := by
  have start_le (other : Token) (inside : other ∈ body) : other.range.start ≤ eof.range.start := by
    have upright := tiled.upright other (List.mem_append_left _ inside)
    have order := (List.pairwise_append.mp tiled.ordered).2.2 other inside eof
      (List.mem_singleton_self _)
    exact Position.le_trans upright order
  rcases List.eq_nil_or_concat body with rfl | ⟨front, last, rfl⟩
  · cases member
  · rcases List.mem_append.mp (List.concat_eq_append ▸ member) with early | final
    · rw [List.concat_eq_append] at rising start_le
      have before := (List.pairwise_append.mp rising).2.2 token early last (List.mem_singleton_self _)
      exact .inl (Position.lt_of_lt_of_le before (start_le last (by simp)))
    · obtain rfl := List.mem_singleton.mp final
      rcases start_le token member with less | same
      · exact .inl less
      · exact .inr ⟨by rw [List.concat_eq_append, List.getLast?_concat], same⟩

/-- Every token but the end of the file stands on a line with characters. -/
theorem linesTokens_placed {lines : List (List Char)} {token : Token}
    (member : token ∈ linesTokens 0 0 lines) :
    ∃ (row : Nat) (line : List Char), lines[row]? = some line ∧ line ≠ [] ∧
      token.range.start.line = row ∧ token.range.stop.line = row := by
  obtain ⟨row, line, found, piece, _⟩ := mem_linesTokens member
  rw [Nat.zero_add] at piece
  obtain ⟨start, stop⟩ := piece.line
  refine ⟨row, line, found, ?_, start, stop⟩
  rintro rfl
  obtain ⟨first, tokens⟩ := filter_line_linesTokens found
  have here : token ∈ (linesTokens 0 0 lines).filter (·.line = (row : Int)) :=
    List.mem_filter.mpr ⟨member, decide_eq_true start⟩
  rw [tokens] at here
  cases here

/-- The tokens of a text, with the gaps before them, fill its lines from end to end, in order and
without overlap. -/
theorem tokenize_fills_text (source : String) :
    ∃ body eof, tokenize source = body ++ [eof] ∧ FillsText (linesOf source) body eof := by
  obtain ⟨eof, final, tokens, kind, _, _, found, range⟩ := exists_eof source
  refine ⟨_, eof, tokens, ?_⟩
  refine {
    inner := linesTokens_inner
    last := kind
    atEnd := ⟨final, found, range⟩
    filled := fun token member inner => (linesTokens_wide member inner).1
    rising := linesTokens_rising 0 0 _
    numbered := ?_, placed := ?_, tiles := ?_, ends := ?_, empty := ?_, meets := ?_ }
  · intro place token found
    rw [← tokens] at found
    simpa using tokenize_numbered source place token found
  · intro token member
    obtain ⟨row, chars, here, filled, start, stop⟩ := linesTokens_placed member
    refine ⟨row, String.ofList chars, ?_, by simpa using filled, start, stop⟩
    rw [linesOf, List.getElem?_map, here, Option.map_some]
  · intro row line found
    rw [← tokens]
    exact tokenize_tiles_line found
  · intro row line found filled
    obtain ⟨chars, here, rfl⟩ := exists_of_linesOf found
    rw [String.length_ofList]
    exact linesTokens_ends here (by simpa using filled)
  · intro row found
    obtain ⟨chars, here, empty⟩ := exists_of_linesOf found
    obtain rfl : chars = [] := by simpa using empty.symm
    obtain ⟨first, line⟩ := filter_line_linesTokens here
    exact line
  · intro token member
    have tiled := tokenize_tiled source
    rw [tokens] at tiled
    refine (start_lt_end_or_last tiled (linesTokens_rising 0 0 _) member).imp_right ?_
    rintro ⟨final, same⟩
    exact ⟨final, linesTokens_getLast? final, same⟩

/-- A line that starts and one that ends with a space, with an empty line between them. -/
theorem tokenize_fills_text_around_spaces :
    ∃ body eof, tokenize " let x\r\n\n7 " = body ++ [eof] ∧ FillsText [" let x", "", "7 "] body eof ∧
      body.map (fun token => (token.gap, token.text)) =
        [(" ", "let"), (" ", "x"), ("", ""), ("", "7"), (" ", "")] := by
  obtain ⟨body, eof, tokens, fills⟩ := tokenize_fills_text " let x\r\n\n7 "
  have lines : linesOf " let x\r\n\n7 " = [" let x", "", "7 "] := by decide +kernel
  have texts : (tokenize " let x\r\n\n7 ").dropLast.map (fun token => (token.gap, token.text)) =
      [(" ", "let"), (" ", "x"), ("", ""), ("", "7"), (" ", "")] := by decide +kernel
  rw [lines] at fills
  rw [tokens, List.dropLast_concat] at texts
  exact ⟨body, eof, tokens, fills, texts⟩

end LineScript
