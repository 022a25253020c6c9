import LineScript.Proofs.Joining
import LineScript.Proofs.Rebuilding
import LineScript.Proofs.Renaming
import Mathlib.Data.List.Forall2

namespace LineScript

/-- The second gap can take the place of the first: it is made of spaces too, and it is not empty if
the first is not. -/
structure Respaces (gap new : List Char) : Prop where
  spaces : ∀ c ∈ new, isSpace c
  kept : gap ≠ [] → new ≠ []

/-- The same token behind another gap. -/
structure Lexeme.Respaced (lexeme new : Lexeme) : Prop where
  kind : new.kind = lexeme.kind
  text : new.text = lexeme.text
  gap : Respaces lexeme.gap new.gap

/-- The same tokens with other gaps between them. A line that has no tokens stays as it is. -/
structure RespacedLine (line new : List Char) : Prop where
  empty : line = [] → new = []
  lexemes : List.Forall₂ Lexeme.Respaced (scanLine line).1 (scanLine new).1
  trail : Respaces (scanLine line).2 (scanLine new).2

section Lines

variable {lexemes news : List Lexeme} {trail newTrail : List Char}

/-- In front of a gap nothing starts but the gap. -/
theorem startsWith_respaces {gap new rest : List Char} (respaces : Respaces gap new)
    {holds : Char → Bool} (space : holds ' ' = false) (filled : new ≠ []) :
    startsWith holds (new ++ rest) = false := by
  obtain ⟨c, more, rfl⟩ := List.exists_cons_of_ne_nil filled
  obtain rfl : c = ' ' := by simpa [isSpace] using respaces.spaces c List.mem_cons_self
  simpa [startsWith] using space

/-- Respaced lexemes start with nothing that the old ones did not start with, spaces apart. -/
theorem startsWith_spelled_respaced (lawful : Lawful lexemes trail)
    (respaced : List.Forall₂ Lexeme.Respaced lexemes news) (ends : Respaces trail newTrail)
    {holds : Char → Bool} (space : holds ' ' = false)
    (stop : startsWith holds (spelled lexemes trail) = false) :
    startsWith holds (spelled news newTrail) = false := by
  cases respaced with
  | nil =>
    by_cases filled : newTrail = []
    · rw [filled]
      rfl
    · have front : startsWith holds (newTrail ++ []) = false := startsWith_respaces ends space filled
      rwa [List.append_nil] at front
  | @cons lexeme new _ _ same _ =>
    by_cases filled : new.gap = []
    · -- A gap that is empty now was empty before, so the same token comes first in both texts.
      have glued : lexeme.gap = [] := by
        by_contra gap
        exact same.gap.kept gap filled
      obtain ⟨c, more, text, _⟩ := lawful.2.1.starts
      simp only [spelled, glued, text, List.nil_append, List.cons_append] at stop
      simp only [spelled, filled, same.text, text, List.nil_append, List.cons_append]
      exact stop
    · exact startsWith_respaces same.gap space filled

/-- Other gaps do not change how a line is read. -/
theorem Lawful.respaced (lawful : Lawful lexemes trail)
    (respaced : List.Forall₂ Lexeme.Respaced lexemes news) (ends : Respaces trail newTrail) :
    Lawful news newTrail := by
  induction respaced with
  | nil => exact ends.spaces
  | @cons lexeme new rest others same later ih =>
    obtain ⟨_, admitted, lawful⟩ := lawful
    refine ⟨same.gap.spaces, ?_, ih lawful⟩
    rw [same.kind, same.text]
    have spaceless : ∀ holds ∈ gluing, holds ' ' = false := by decide
    exact admitted.of_stops fun holds member stop =>
      startsWith_spelled_respaced lawful later ends (spaceless holds member) stop

theorem RespacedLine.nil : RespacedLine [] [] := by
  have scanned : scanLine [] = ([], []) := scanLine_of_spaces rfl
  refine ⟨fun _ => rfl, ?_, ?_⟩
  · rw [scanned]
    exact .nil
  · rw [scanned]
    exact ⟨by simp, by simp⟩

theorem RespacedLine.of_spelled {line : List Char} (filled : line ≠ [])
    (respaced : List.Forall₂ Lexeme.Respaced (scanLine line).1 news)
    (ends : Respaces (scanLine line).2 newTrail) : RespacedLine line (spelled news newTrail) := by
  have scanned := scanLine_of_lawful ((scanLine_lawful line).1.respaced respaced ends)
  refine ⟨fun none => absurd none filled, ?_, ?_⟩
  · rwa [scanned]
  · rwa [scanned]

/-- Respacing puts in spaces only. -/
theorem mem_spelled_respaced (respaced : List.Forall₂ Lexeme.Respaced lexemes news)
    (ends : Respaces trail newTrail) {c : Char} (member : c ∈ spelled news newTrail) :
    isSpace c ∨ c ∈ spelled lexemes trail := by
  induction respaced with
  | nil => exact .inl (ends.spaces c member)
  | @cons lexeme new _ _ same _ ih =>
    simp only [spelled, List.mem_append] at member ⊢
    rcases member with gap | text | later
    · exact .inl (same.gap.spaces c gap)
    · exact .inr (.inr (.inl (same.text ▸ text)))
    · exact (ih later).imp_right fun inside => .inr (.inr inside)

theorem spelled_eq_nil_of_respaced (lawful : Lawful lexemes trail)
    (respaced : List.Forall₂ Lexeme.Respaced lexemes news) (ends : Respaces trail newTrail)
    (empty : spelled news newTrail = []) : spelled lexemes trail = [] := by
  obtain ⟨rfl, rfl⟩ := (lawful.respaced respaced ends).eq_nil_of_spelled empty
  cases respaced
  by_contra filled
  exact ends.kept filled rfl

/-- A line that ends in a token still does, if it does so after respacing. -/
theorem getLast?_spelled_respaced (lawful : Lawful lexemes trail)
    (respaced : List.Forall₂ Lexeme.Respaced lexemes news) (ends : Respaces trail newTrail) {c : Char}
    (space : ¬ isSpace c) (last : (spelled news newTrail).getLast? = some c) :
    (spelled lexemes trail).getLast? = some c := by
  induction respaced with
  | nil => exact absurd (ends.spaces c (List.mem_of_getLast? last)) space
  | @cons lexeme new rest others same later ih =>
    obtain ⟨_, admitted, lawful⟩ := lawful
    obtain ⟨first, more, text, _⟩ := admitted.starts
    rw [spelled, List.getLast?_append, List.getLast?_append] at last ⊢
    cases behind : (spelled others newTrail).getLast? with
    | none =>
      -- Nothing stands behind this token, so nothing stood there before: the last gap was kept.
      have nothing := spelled_eq_nil_of_respaced lawful later ends (List.getLast?_eq_none_iff.mp behind)
      rw [behind, same.text, text] at last
      simpa [nothing, text] using last
    | some d =>
      obtain rfl : d = c := by simpa [behind] using last
      simp [ih lawful behind]

end Lines

namespace RespacedLine

variable {line new : List Char} (respaced : RespacedLine line new)
include respaced

theorem eq_nil_iff : new = [] ↔ line = [] := by
  refine ⟨fun none => ?_, respaced.empty⟩
  rw [← (scanLine_lawful line).2]
  apply spelled_eq_nil_of_respaced (scanLine_lawful line).1 respaced.lexemes respaced.trail
  rw [(scanLine_lawful new).2, none]

theorem plain (free : '\n' ∉ line) : '\n' ∉ new := by
  intro inside
  rw [← (scanLine_lawful new).2] at inside
  rcases mem_spelled_respaced respaced.lexemes respaced.trail inside with space | old
  · exact absurd space (by decide)
  · rw [(scanLine_lawful line).2] at old
    exact free old

theorem getLast?_of_return (last : new.getLast? = some '\r') : line.getLast? = some '\r' := by
  rw [← (scanLine_lawful new).2] at last
  have old := getLast?_spelled_respaced (scanLine_lawful line).1 respaced.lexemes respaced.trail
    (by decide) last
  rwa [(scanLine_lawful line).2] at old

end RespacedLine

/-- Respaced lines stay apart. -/
theorem Separated.respaced {endings : List LineEnding} {lines news : List (List Char)}
    (separated : Separated endings lines) (respaced : List.Forall₂ RespacedLine lines news) :
    Separated endings news := by
  induction separated generalizing news with
  | last plain =>
    obtain ⟨new, _, same, none, rfl⟩ := List.forall₂_cons_left_iff.mp respaced
    cases none
    exact .last (same.plain plain)
  | next plain fits _ ih =>
    obtain ⟨new, _, same, later, rfl⟩ := List.forall₂_cons_left_iff.mp respaced
    exact .next (same.plain plain) (fun feed last => fits feed (same.getLast?_of_return last)) (ih later)

def Token.bare (token : Token) : Token := { token with range := token.range.flat, gap := "" }

/-- Columns and gaps are lost, and nothing else. -/
def baring : Relabelling := ⟨Token.bare, fun _ => rfl, fun _ => rfl, fun _ => rfl, fun _ => rfl⟩

theorem placeLexemes_bare {lexemes news : List Lexeme}
    (respaced : List.Forall₂ Lexeme.Respaced lexemes news) (row id column place : Nat) :
    (placeLexemes row id place news).map Token.bare =
      (placeLexemes row id column lexemes).map Token.bare := by
  induction respaced generalizing id column place with
  | nil => rfl
  | @cons lexeme new _ _ same _ ih =>
    simp only [placeLexemes, List.map_cons, same.kind, same.text]
    rw [ih (id + 1) (column + lexeme.gap.length + lexeme.text.length)]
    rfl

theorem lineTokens_bare {line new : List Char} (respaced : RespacedLine line new) (id row : Nat) :
    (lineTokens id row new).map Token.bare = (lineTokens id row line).map Token.bare := by
  by_cases filled : line = []
  · rw [respaced.empty filled, filled]
  · rw [lineTokens_of_ne_nil filled, lineTokens_of_ne_nil (filled ∘ respaced.eq_nil_iff.mp),
      List.map_append, List.map_append, placeLexemes_bare respaced.lexemes row id 0 0,
      respaced.lexemes.length_eq]
    rfl

theorem linesTokens_bare {lines news : List (List Char)}
    (respaced : List.Forall₂ RespacedLine lines news) (id row : Nat) :
    (linesTokens id row news).map Token.bare = (linesTokens id row lines).map Token.bare := by
  induction respaced generalizing id row with
  | nil => rfl
  | cons same _ ih =>
    have here := lineTokens_bare same id row
    have length := congrArg List.length here
    rw [List.length_map, List.length_map] at length
    rw [linesTokens, linesTokens, List.map_append, List.map_append, here, length, ih]

/-- A respaced text has the same tokens in other columns. -/
theorem tokenize_bare {source other : String}
    (respaced : List.Forall₂ RespacedLine (splitLines source.toList) (splitLines other.toList)) :
    (tokenize other).map Token.bare = (tokenize source).map Token.bare := by
  have tokens := linesTokens_bare respaced 0 0
  have length := congrArg List.length tokens
  rw [List.length_map, List.length_map] at length
  simp only [tokenize, List.map_append, tokens, length, respaced.length_eq]
  rfl

/-- The two models read the same: the tokens but for their columns and gaps, the symbols, and the
problems with the lines that they start on. -/
structure SameReading (model after : Model) : Prop where
  tokens : after.tokens.map (fun token => (token.id, token.kind, token.text, token.line)) =
    model.tokens.map fun token => (token.id, token.kind, token.text, token.line)
  table : after.table = model.table
  shape : after.shapeDiagnostics.map (fun found => (found.message, found.range.start.line)) =
    model.shapeDiagnostics.map fun found => (found.message, found.range.start.line)
  names : after.nameDiagnostics.map (·.message) = model.nameDiagnostics.map (·.message)

theorem sameReading_of_bare {source other : String} {blockScoping : Bool} {model after : Model}
    (analyzed : analyze source blockScoping = .ok model)
    (again : analyze other blockScoping = .ok after)
    (tokens : (tokenize other).map Token.bare = (tokenize source).map Token.bare) :
    SameReading model after := by
  have text : ∀ token, (baring.token token).text = token.text := fun _ => rfl
  have entries := Relabelling.entries_eq baring baring tokens
    (baring.keeps_of_text text blockScoping ..) (baring.keeps_of_text text ..)
  cases (analyze_eq source blockScoping).symm.trans analyzed
  cases (analyze_eq other blockScoping).symm.trans again
  refine ⟨?_, ?_, ?_, ?_⟩
  · have fields := congrArg (List.map fun token => (token.id, token.kind, token.text, token.line)) tokens
    rwa [List.map_map, List.map_map] at fields
  · have draft := congrArg draftOf entries
    rw [baring.draftOf_of_text text, baring.draftOf_of_text text] at draft
    exact congrArg TableDraft.build draft
  · have shape := congrArg (List.map fun found => (found.message, found.range.start.line))
      (Relabelling.shape_eq baring baring tokens)
    rwa [List.map_map, List.map_map] at shape
  · have undefined := congrArg (List.filterMap Entry.undefined?) entries
    rw [baring.undefined, baring.undefined] at undefined
    have messages := congrArg (List.map fun token => undefinedMessage token.text) undefined
    simpa [warnings_eq, Function.comp_def, Diagnostic.warning, text] using messages

/-- Put some spaces before a token, in place of those that are there. -/
def Token.spaced (width : Int → Nat) (token : Token) : Token :=
  { token with gap := String.ofList (List.replicate (width token.id) ' ') }

section Spaced

variable {width : Int → Nat}

theorem Token.spaced_respaces {token : Token} (kept : token.gap ≠ "" → 0 < width token.id) :
    Respaces token.gap.toList (token.spaced width).gap.toList := by
  rw [Token.spaced, String.toList_ofList]
  refine ⟨fun c member => ?_, fun filled => ?_⟩
  · simp [isSpace, List.eq_of_mem_replicate member]
  · have positive := kept (by simpa using filled)
    rw [Ne, List.replicate_eq_nil_iff]
    omega

theorem onLine_spaced (row : Int) (tokens : List Token) :
    onLine row (tokens.map (Token.spaced width)) = (onLine row tokens).map (Token.spaced width) :=
  List.filter_map ..

/-- The tokens of a line, written back behind other gaps, respace the line. -/
theorem respacedLine_written {source : String} {row : Nat} {line : List Char}
    (found : (splitLines source.toList)[row]? = some line)
    (kept : ∀ token ∈ tokenize source, token.gap ≠ "" → 0 < width token.id) :
    RespacedLine line (written (onLine row ((tokenize source).map (Token.spaced width)))) := by
  rw [onLine_spaced]
  by_cases filled : line = []
  · subst filled
    obtain ⟨first, here⟩ := onLine_tokenize found
    rw [here]
    exact .nil
  · obtain ⟨body, eol, here, _, empty, lexemes, trail⟩ := exists_onLine_tokenize found filled
    have present : ∀ token ∈ body ++ [eol], token ∈ tokenize source := by
      intro token member
      rw [← here] at member
      exact List.mem_of_mem_filter member
    rw [List.forall_mem_append] at present
    rw [here, List.map_append, List.map_singleton, @written_eq_spelled _ (eol.spaced width) empty]
    apply RespacedLine.of_spelled filled
    · rw [← lexemes, List.forall₂_map_left_iff, List.forall₂_map_right_iff, List.forall₂_map_right_iff,
        List.forall₂_same]
      exact fun token member => ⟨rfl, rfl, Token.spaced_respaces (kept token (present.1 token member))⟩
    · rw [← trail]
      exact Token.spaced_respaces (kept eol (present.2 eol List.mem_cons_self))

/-- So do all lines of a text. -/
theorem respacedLines_written {source : String}
    (kept : ∀ token ∈ tokenize source, token.gap ≠ "" → 0 < width token.id) :
    List.Forall₂ RespacedLine (splitLines source.toList)
      (writtenLines (linesOf source).length ((tokenize source).map (Token.spaced width))) := by
  refine List.forall₂_iff_get.mpr ⟨by simp [writtenLines, linesOf], fun row inside _ => ?_⟩
  simpa [writtenLines] using respacedLine_written (List.getElem?_eq_getElem inside) kept

end Spaced

/-- Spaces make no difference. Take any text, give each of its tokens any number of spaces, but at
least one where there was one, and put the lines together again as they were: all that changes is
columns. -/
theorem analyze_ignores_spacing (source : String) (blockScoping : Bool) :
    ∃ model, analyze source blockScoping = .ok model ∧
      joined (endingsOf source.toList) model.lines = source ∧
      ∀ width : Int → Nat, (∀ token ∈ model.tokens, token.gap ≠ "" → 0 < width token.id) →
        ∃ lines after, rebuildLines (model.tokens.map (Token.spaced width)) model.lines.length = .ok lines ∧
          analyze (joined (endingsOf source.toList) lines) blockScoping = .ok after ∧
          after.lines = lines ∧ SameReading model after := by
  have analyzed := analyze_eq source blockScoping
  obtain ⟨separated, whole⟩ := separated_splitLines source.toList
  refine ⟨_, analyzed, by simp [joined, linesOf, whole], fun width kept => ?_⟩
  have placed : ∀ token ∈ (tokenize source).map (Token.spaced width), token.kind ≠ .endOfFile →
      ∃ row : Nat, token.line = row ∧ row < (linesOf source).length :=
    List.forall_mem_map.mpr fun token member inner => @tokenize_placed source token member inner
  have respaced := respacedLines_written kept
  -- No carriage return comes to stand before a line feed that was not there before.
  have split := (separated.respaced respaced).splitLines_joinLines
  have rebuilt := rebuildLines_eq placed
  generalize writtenLines _ _ = news at respaced split rebuilt
  have text : (joined (endingsOf source.toList) (news.map String.ofList)).toList =
      joinLines (endingsOf source.toList) news := by
    simp [joined, Function.comp_def]
  rw [← text] at split
  have again := analyze_eq (joined (endingsOf source.toList) (news.map String.ofList)) blockScoping
  refine ⟨_, _, rebuilt, again, ?_, sameReading_of_bare analyzed again (tokenize_bare ?_)⟩
  · exact congrArg (List.map String.ofList) split
  · rwa [split]

/-- Glued tokens come apart, and the space between a carriage return and its line feed stays. -/
theorem analyze_ignores_spacing_of_glued_tokens :
    let width : Int → Nat := fun id => if id ∈ [1, 2, 5, 6, 9] then 1 else if id = 7 then 3 else 0
    ∃ model after, analyze "let x=1\r\n  x +y\r \n\nz(" true = .ok model ∧
      (∀ token ∈ model.tokens, token.gap ≠ "" → 0 < width token.id) ∧
      analyze "let x =1\r\n x +   y\r \n\nz(" true = .ok after ∧ SameReading model after := by
  intro width
  have kept : ∀ token ∈ tokenize "let x=1\r\n  x +y\r \n\nz(", token.gap ≠ "" → 0 < width token.id := by
    decide +kernel
  have rebuilt : rebuildLines ((tokenize "let x=1\r\n  x +y\r \n\nz(").map (Token.spaced width))
      (linesOf "let x=1\r\n  x +y\r \n\nz(").length =
        .ok ["let x =1", " x +   y\r ", "", "z("] := by
    decide +kernel
  have text : joined (endingsOf "let x=1\r\n  x +y\r \n\nz(".toList)
      ["let x =1", " x +   y\r ", "", "z("] = "let x =1\r\n x +   y\r \n\nz(" := by
    decide +kernel
  obtain ⟨model, analyzed, _, respaced⟩ :=
    analyze_ignores_spacing "let x=1\r\n  x +y\r \n\nz(" true
  cases (analyze_eq _ true).symm.trans analyzed
  obtain ⟨lines, after, written, again, _, same⟩ := respaced width kept
  cases written.symm.trans rebuilt
  exact ⟨_, after, analyzed, kept, text ▸ again, same⟩

end LineScript
