import LineScript.Proofs.LexicalRules
import LineScript.Source.Lines

namespace LineScript

/-- The token is a piece of line number `row`, and its range says which one. -/
def PieceOf (row : Nat) (line : List Char) (token : Token) : Prop :=
  ∃ before after, line = before ++ (token.text.toList ++ after) ∧
    token.range = .ofText ⟨row, before.length⟩ token.text

theorem PieceOf.line {row : Nat} {line : List Char} {token : Token}
    (piece : PieceOf row line token) : token.range.start.line = row ∧ token.range.stop.line = row := by
  obtain ⟨before, after, _, range⟩ := piece
  rw [range]
  exact ⟨rfl, rfl⟩

/-- The place and the source of a token among the lexemes of a line. -/
theorem mem_placeLexemes {row id column : Nat} {lexemes : List Lexeme} {token : Token}
    (member : token ∈ placeLexemes row id column lexemes) (lead trail : List Char)
    (start : lead.length = column) :
    PieceOf row (lead ++ spelled lexemes trail) token ∧ (column : Int) ≤ token.range.start.column ∧
      ∃ lexeme ∈ lexemes, token.kind = lexeme.kind ∧ token.text = String.ofList lexeme.text := by
  induction lexemes generalizing id column lead with
  | nil => cases member
  | cons lexeme rest ih =>
    rcases List.mem_cons.mp member with rfl | later
    · refine ⟨⟨lead ++ lexeme.gap, spelled rest trail, ?_, ?_⟩, ?_, lexeme, ?_, rfl, rfl⟩
      · simp [spelled]
      · simp [start]
      · simp only [Range.ofText]
        omega
      · exact List.mem_cons_self
    · obtain ⟨piece, bound, other, inside, kind, text⟩ :=
        ih later (lead ++ (lexeme.gap ++ lexeme.text)) (by simp [start]; omega)
      refine ⟨?_, by omega, other, List.mem_cons_of_mem _ inside, kind, text⟩
      simpa [spelled] using piece

theorem lineTokens_of_ne_nil {line : List Char} (filled : line ≠ []) (id row : Nat) :
    lineTokens id row line = placeLexemes row id 0 (scanLine line).1 ++
      [⟨(id + (scanLine line).1.length : Nat), .endOfLine, "", .point ⟨row, line.length⟩,
        String.ofList (scanLine line).2⟩] := by
  obtain ⟨c, more, rfl⟩ := List.exists_cons_of_ne_nil filled
  rfl

/-- Every token of a line but the last is read off it. -/
theorem mem_lineTokens {id row : Nat} {line : List Char} {token : Token}
    (member : token ∈ lineTokens id row line) :
    PieceOf row line token ∧ (token.kind = .endOfLine ∨
      ∃ next, Admitted token.kind token.text.toList next) := by
  obtain ⟨lawful, spell⟩ := scanLine_lawful line
  cases line with
  | nil => cases member
  | cons c more =>
    simp only [lineTokens, List.mem_append, List.mem_singleton] at member
    rcases member with placed | rfl
    · obtain ⟨piece, _, lexeme, inside, kind, text⟩ :=
        mem_placeLexemes placed [] (scanLine (c :: more)).2 rfl
      rw [List.nil_append, spell] at piece
      obtain ⟨next, admitted⟩ := lawful.admitted inside
      exact ⟨piece, .inr ⟨next, by simpa [kind, text] using admitted⟩⟩
    · exact ⟨⟨c :: more, [], by simp, by simp [Range.ofText, Range.point, Position.advance]⟩,
        .inl rfl⟩

theorem mem_linesTokens {id row : Nat} {lines : List (List Char)} {token : Token}
    (member : token ∈ linesTokens id row lines) :
    ∃ place line, lines[place]? = some line ∧ PieceOf (row + place) line token ∧
      (token.kind = .endOfLine ∨ ∃ next, Admitted token.kind token.text.toList next) := by
  induction lines generalizing id row with
  | nil => cases member
  | cons line rest ih =>
    rcases List.mem_append.mp member with here | later
    · obtain ⟨piece, kind⟩ := mem_lineTokens here
      exact ⟨0, line, rfl, piece, kind⟩
    · obtain ⟨place, other, found, piece, kind⟩ := ih later
      refine ⟨place + 1, other, found, ?_, kind⟩
      rwa [Nat.add_right_comm, Nat.add_assoc] at piece

theorem linesTokens_inner {id row : Nat} {lines : List (List Char)} :
    ∀ token ∈ linesTokens id row lines, token.kind ≠ .endOfFile := by
  intro token member
  obtain ⟨_, _, _, _, eol | ⟨_, admitted⟩⟩ := mem_linesTokens member
  · simp [eol]
  · exact admitted.inner.2

/-- A text's tokens: those of its lines, then the end of the file. -/
theorem tokenize_eq (source : String) : ∃ eof, eof.kind = .endOfFile ∧
    tokenize source = linesTokens 0 0 (splitLines source.toList) ++ [eof] :=
  ⟨_, rfl, rfl⟩

theorem mem_tokenize_of_mem {source : String} {token : Token}
    (member : token ∈ linesTokens 0 0 (splitLines source.toList)) : token ∈ tokenize source :=
  List.mem_append_left _ member

theorem mem_linesTokens_of_mem {source : String} {token : Token} (member : token ∈ tokenize source)
    (inner : token.kind ≠ .endOfFile) : token ∈ linesTokens 0 0 (splitLines source.toList) := by
  obtain ⟨eof, last, tokens⟩ := tokenize_eq source
  rw [tokens, List.mem_append, List.mem_singleton] at member
  rcases member with inside | rfl
  · exact inside
  · exact absurd last inner

theorem placeLexemes_length (row id column : Nat) (lexemes : List Lexeme) :
    (placeLexemes row id column lexemes).length = lexemes.length := by
  induction lexemes generalizing id column with
  | nil => rfl
  | cons lexeme rest ih => simp [placeLexemes, ih]

/-- A token without its place. -/
def Token.lexeme (token : Token) : Lexeme := ⟨token.gap.toList, token.kind, token.text.toList⟩

theorem placeLexemes_lexemes (row id column : Nat) (lexemes : List Lexeme) :
    (placeLexemes row id column lexemes).map Token.lexeme = lexemes := by
  induction lexemes generalizing id column with
  | nil => rfl
  | cons lexeme rest ih => simp [placeLexemes, ih, Token.lexeme]

/-- Tokens that are numbered one after the other, from `id` on. -/
def Numbered (id : Nat) (tokens : List Token) : Prop :=
  ∀ (place : Nat) token, tokens[place]? = some token → token.id = (id + place : Nat)

theorem Numbered.append {id : Nat} {first second : List Token} (front : Numbered id first)
    (back : Numbered (id + first.length) second) : Numbered id (first ++ second) := by
  intro place token found
  by_cases inside : place < first.length
  · rw [List.getElem?_append_left inside] at found
    exact front place token found
  · rw [List.getElem?_append_right (by omega)] at found
    rw [back _ token found]
    congr 1
    omega

theorem Numbered.single {id : Nat} {token : Token} (number : token.id = id) : Numbered id [token] := by
  intro place other found
  obtain ⟨rfl, rfl⟩ : place = 0 ∧ token = other := by simpa [List.getElem?_singleton] using found
  exact number

theorem placeLexemes_numbered (row id column : Nat) (lexemes : List Lexeme) :
    Numbered id (placeLexemes row id column lexemes) := by
  induction lexemes generalizing id column with
  | nil =>
    intro place token found
    cases found
  | cons lexeme rest ih => exact (Numbered.single rfl).append (ih _ _)

theorem lineTokens_numbered (id row : Nat) (line : List Char) :
    Numbered id (lineTokens id row line) := by
  cases line with
  | nil =>
    intro place token found
    cases found
  | cons c more =>
    refine (placeLexemes_numbered _ _ _ _).append (.single ?_)
    simp [placeLexemes_length]

theorem linesTokens_numbered (id row : Nat) (lines : List (List Char)) :
    Numbered id (linesTokens id row lines) := by
  induction lines generalizing id row with
  | nil =>
    intro place token found
    cases found
  | cons line rest ih => exact (lineTokens_numbered _ _ _).append (ih _ _)

/-- The id of a token is its place. -/
theorem tokenize_numbered (source : String) : Numbered 0 (tokenize source) :=
  (linesTokens_numbered _ _ _).append (.single (by simp))

/-- The ids of numbered tokens grow. -/
theorem Numbered.increasing {id : Nat} {tokens : List Token} (numbered : Numbered id tokens) :
    tokens.Pairwise (·.id < ·.id) := by
  rw [List.pairwise_iff_getElem]
  intro first second inFirst inSecond order
  have one := numbered first _ (List.getElem?_eq_getElem inFirst)
  have two := numbered second _ (List.getElem?_eq_getElem inSecond)
  omega

theorem Numbered.ids_nodup {id : Nat} {tokens : List Token} (numbered : Numbered id tokens) :
    (tokens.map (·.id)).Nodup := by
  rw [List.Nodup, List.pairwise_map]
  exact numbered.increasing.imp Int.ne_of_lt

theorem Position.lt_iff {first second : Position} : first < second ↔
    first.line < second.line ∨ first.line = second.line ∧ first.column < second.column := Iff.rfl

theorem Position.le_iff {first second : Position} : first ≤ second ↔
    first.line < second.line ∨ first.line = second.line ∧ first.column ≤ second.column := by
  constructor
  · rintro (before | rfl)
    · rcases Position.lt_iff.mp before with line | column <;> omega
    · omega
  · intro order
    by_cases same : first.line = second.line ∧ first.column = second.column
    · right
      obtain ⟨line, column⟩ := first
      obtain ⟨rfl, rfl⟩ := same
      rfl
    · exact .inl (Position.lt_iff.mpr (by omega))

/-- One token ends before the other starts. -/
def Precedes (first second : Token) : Prop := first.range.stop ≤ second.range.start

theorem placeLexemes_ordered (row id column : Nat) (lexemes : List Lexeme) :
    (placeLexemes row id column lexemes).Pairwise Precedes := by
  induction lexemes generalizing id column with
  | nil => exact .nil
  | cons lexeme rest ih =>
    refine .cons ?_ (ih _ _)
    intro token member
    obtain ⟨piece, bound, _⟩ := mem_placeLexemes member (List.replicate _ ' ') [] List.length_replicate
    refine Position.le_iff.mpr (.inr ⟨piece.line.1.symm, ?_⟩)
    simpa [Range.ofText, Position.advance] using bound

theorem lineTokens_ordered (id row : Nat) (line : List Char) :
    (lineTokens id row line).Pairwise Precedes := by
  cases line with
  | nil => exact .nil
  | cons c more =>
    simp only [lineTokens]
    rw [List.pairwise_append]
    refine ⟨placeLexemes_ordered _ _ _ _, List.pairwise_singleton _ _, ?_⟩
    intro token placed eol last
    obtain ⟨⟨before, after, whole, range⟩, _⟩ := @mem_lineTokens id row (c :: more) token
      (List.mem_append_left _ placed)
    have length := congrArg List.length whole
    rw [List.mem_singleton.mp last]
    refine Position.le_iff.mpr (.inr ?_)
    simp only [range, Range.ofText, Range.point, Position.advance, ← String.length_toList, length,
      List.length_append, true_and]
    omega

theorem linesTokens_ordered (id row : Nat) (lines : List (List Char)) :
    (linesTokens id row lines).Pairwise Precedes := by
  induction lines generalizing id row with
  | nil => exact .nil
  | cons line rest ih =>
    rw [linesTokens, List.pairwise_append]
    refine ⟨lineTokens_ordered _ _ _, ih _ _, ?_⟩
    intro token here other later
    obtain ⟨place, _, _, piece, _⟩ := mem_linesTokens later
    have above := (mem_lineTokens here).1.line.2
    have below := piece.line.1
    exact Position.le_iff.mpr (.inl (by omega))

/-- Of two tokens of a text one precedes the other. -/
theorem linesTokens_apart {id row : Nat} {lines : List (List Char)} {first second : Token}
    (one : first ∈ linesTokens id row lines) (two : second ∈ linesTokens id row lines) :
    first = second ∨ Precedes first second ∨ Precedes second first := by
  have ordered := linesTokens_ordered id row lines
  have forward := ordered.imp fun {first second} order =>
    (.inr (.inl order) : first = second ∨ Precedes first second ∨ Precedes second first)
  have backward := ordered.imp fun {first second} order =>
    (.inr (.inr order) : second = first ∨ Precedes second first ∨ Precedes first second)
  exact forward.forall_of_forall_of_flip (fun _ _ => .inl rfl) backward one two

/-- Every token of a text but the end of a line has its start before its stop. -/
theorem linesTokens_wide {id row : Nat} {lines : List (List Char)} {token : Token}
    (member : token ∈ linesTokens id row lines) (inner : token.kind ≠ .endOfLine) :
    token.text ≠ "" ∧ token.range.start < token.range.stop := by
  obtain ⟨_, _, _, ⟨before, after, _, range⟩, eol | ⟨next, admitted⟩⟩ := mem_linesTokens member
  · exact absurd eol inner
  · obtain ⟨c, more, text, _⟩ := admitted.starts
    have length := congrArg List.length text
    rw [String.length_toList, List.length_cons] at length
    refine ⟨?_, ?_⟩
    · rintro empty
      simp [empty] at length
    · rw [range]
      refine Position.lt_iff.mpr (.inr ⟨rfl, ?_⟩)
      simp only [Range.ofText, Position.advance]
      omega

theorem name_start_lt_stop {id row : Nat} {lines : List (List Char)} {token : Token}
    (member : token ∈ linesTokens id row lines) (name : token.kind = .name) :
    token.text ≠ "" ∧ token.range.start < token.range.stop :=
  linesTokens_wide member (by simp [name])

theorem eq_of_start_eq {id row : Nat} {lines : List (List Char)} {first second : Token}
    (one : first ∈ linesTokens id row lines) (two : second ∈ linesTokens id row lines)
    (name : first.kind = .name) (other : second.kind = .name)
    (start : first.range.start = second.range.start) : first = second := by
  have wide := Position.lt_iff.mp (name_start_lt_stop one name).2
  have wider := Position.lt_iff.mp (name_start_lt_stop two other).2
  rcases linesTokens_apart one two with same | before | after
  · exact same
  · have order := Position.le_iff.mp before
    rw [start] at wide
    omega
  · have order := Position.le_iff.mp after
    rw [← start] at wider
    omega

theorem Position.le_trans {first second third : Position} (one : first ≤ second)
    (two : second ≤ third) : first ≤ third := by
  rw [Position.le_iff] at one two ⊢
  omega

theorem Position.lt_of_lt_of_le {first second third : Position} (one : first < second)
    (two : second ≤ third) : first < third := by
  rw [Position.le_iff] at two
  rw [Position.lt_iff] at one ⊢
  omega

theorem Position.not_lt_of_le {first second : Position} (order : first ≤ second) :
    ¬ second < first := by
  rw [Position.le_iff] at order
  rw [Position.lt_iff]
  omega

/-- Tokens in the order of a text: each one ends before the next starts. -/
structure Tiled (tokens : List Token) : Prop where
  ordered : tokens.Pairwise Precedes
  upright : ∀ token ∈ tokens, token.range.start ≤ token.range.stop

theorem Tiled.sublist {tokens part : List Token} (tiled : Tiled tokens) (inside : part.Sublist tokens) :
    Tiled part :=
  ⟨tiled.ordered.sublist inside, fun token member => tiled.upright token (inside.subset member)⟩

theorem PieceOf.upright {row : Nat} {line : List Char} {token : Token}
    (piece : PieceOf row line token) : token.range.start ≤ token.range.stop := by
  obtain ⟨before, after, _, range⟩ := piece
  rw [range]
  refine Position.le_iff.mpr (.inr ⟨rfl, ?_⟩)
  simp only [Range.ofText, Position.advance]
  omega

/-- No token of a text reaches beyond the end of its last line. -/
theorem stop_le_end {lines : List (List Char)} {token : Token} (member : token ∈ linesTokens 0 0 lines) :
    token.range.stop ≤ ⟨(lines.length - 1 : Nat), (lines.getLast?.getD []).length⟩ := by
  obtain ⟨place, line, found, ⟨before, after, whole, range⟩, _⟩ := mem_linesTokens member
  obtain ⟨bound, _⟩ := List.getElem?_eq_some_iff.mp found
  have length := congrArg List.length whole
  rw [List.length_append, List.length_append, String.length_toList] at length
  rw [range, Position.le_iff]
  simp only [Range.ofText, Position.advance, Nat.zero_add]
  by_cases last : place = lines.length - 1
  · have same : lines.getLast? = some line := by rw [List.getLast?_eq_getElem?, ← last, found]
    simp only [same, Option.getD_some]
    omega
  · omega

theorem tokenize_tiled (source : String) : Tiled (tokenize source) := by
  have ordered := linesTokens_ordered 0 0 (splitLines source.toList)
  refine ⟨List.pairwise_append.mpr ⟨ordered, List.pairwise_singleton _ _, ?_⟩, ?_⟩
  · intro token inside eof last
    rw [List.mem_singleton.mp last]
    exact stop_le_end inside
  · intro token member
    rcases List.mem_append.mp member with inside | last
    · obtain ⟨_, _, _, piece, _⟩ := mem_linesTokens inside
      exact piece.upright
    · rw [List.mem_singleton.mp last]
      exact .inr rfl

/-- No token but the last of a line is the end of the line. -/
theorem placeLexemes_inner {row id column : Nat} {line : List Char} {token : Token}
    (member : token ∈ placeLexemes row id column (scanLine line).1) : token.kind ≠ .endOfLine := by
  obtain ⟨_, _, lexeme, inside, kind, _⟩ :=
    mem_placeLexemes member (List.replicate column ' ') [] List.length_replicate
  obtain ⟨_, admitted⟩ := (scanLine_lawful line).1.admitted inside
  rw [kind]
  exact admitted.inner.1

theorem lineTokens_endOfLine {id row : Nat} {line : List Char} {token : Token}
    (member : token ∈ lineTokens id row line) (kind : token.kind = .endOfLine) :
    token.range = .point ⟨row, line.length⟩ := by
  cases line with
  | nil => cases member
  | cons c more =>
    rcases List.mem_append.mp member with placed | last
    · exact absurd kind (placeLexemes_inner placed)
    · rw [List.mem_singleton.mp last]

/-- The end of a line stands behind its last character and takes up no room. -/
theorem linesTokens_endOfLine {id row : Nat} {lines : List (List Char)} {token : Token}
    (member : token ∈ linesTokens id row lines) (kind : token.kind = .endOfLine) :
    ∃ (place : Nat) (line : List Char), lines[place]? = some line ∧
      token.range = .point ⟨(row + place : Nat), line.length⟩ := by
  induction lines generalizing id row with
  | nil => cases member
  | cons line rest ih =>
    rcases List.mem_append.mp member with here | later
    · exact ⟨0, line, rfl, lineTokens_endOfLine here kind⟩
    · obtain ⟨place, other, found, range⟩ := ih later
      refine ⟨place + 1, other, found, ?_⟩
      rw [range, Nat.add_right_comm, Nat.add_assoc]

theorem Range.contains_iff {range : Range} {position : Position} :
    range.contains position ↔ range.start ≤ position ∧ position < range.stop := by
  simp [Range.contains]

/-- No position lies in the end of a line. -/
theorem kind_ne_of_contains {source : String} {token : Token} (member : token ∈ tokenize source)
    {position : Position} (here : token.range.contains position) : token.kind ≠ .endOfLine := by
  intro kind
  obtain ⟨start, stop⟩ := Range.contains_iff.mp here
  rcases List.mem_append.mp member with inside | last
  · obtain ⟨_, _, _, range⟩ := linesTokens_endOfLine inside kind
    rw [range] at start stop
    exact Position.not_lt_of_le start stop
  · rw [List.mem_singleton.mp last] at kind
    cases kind

end LineScript
