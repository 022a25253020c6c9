import LineScript.Proofs.DistinctStarts
import LineScript.Proofs.Hits
import LineScript.Proofs.Proceeding
import LineScript.Proofs.Tiling
import Mathlib.Data.List.Chain

namespace LineScript

/-- The second of two neighbours is on the line of the first, unless the line ends between them. -/
def Adjoins (first second : Token) : Prop := first.kind = .endOfLine ∨ first.line = second.line

theorem lineTokens_adjoin (id row : Nat) (line : List Char) :
    (lineTokens id row line).IsChain Adjoins := by
  refine List.Pairwise.isChain (List.pairwise_of_forall_mem_list fun first one second two => .inr ?_)
  rw [Token.line, Token.line, (mem_lineTokens one).1.line.1, (mem_lineTokens two).1.line.1]

theorem linesTokens_adjoin (id row : Nat) (lines : List (List Char)) :
    (linesTokens id row lines).IsChain Adjoins := by
  induction lines generalizing id row with
  | nil => exact .nil
  | cons line rest ih =>
    refine List.isChain_append.mpr ⟨lineTokens_adjoin _ _ _, ih _ _, ?_⟩
    exact fun last found _ _ => .inl (lineTokens_getLast? found)

/-- On each line of a text there is no token behind the end of the line. -/
theorem tokenize_adjoin (source : String) : (tokenize source).IsChain Adjoins := by
  refine List.isChain_append.mpr ⟨linesTokens_adjoin _ _ _, .singleton _, ?_⟩
  exact fun last found _ _ => .inl (linesTokens_getLast? found)

/-- Tokens up to one that is not behind the end of their line are all on its line. -/
theorem line_eq_of_isChain {run after : List Token} {next : Token}
    (chain : (run ++ next :: after).IsChain Adjoins)
    (inner : ∀ token ∈ run, token.kind ≠ .endOfLine) : ∀ token ∈ run, token.line = next.line := by
  induction run with
  | nil => exact List.forall_mem_nil _
  | cons token rest ih =>
    obtain ⟨kind, others⟩ := List.forall_mem_cons.mp inner
    obtain ⟨first, chain⟩ := List.isChain_cons.mp chain
    have later := ih chain others
    refine List.forall_mem_cons.mpr ⟨?_, later⟩
    cases rest with
    | nil => exact (first next rfl).resolve_left kind
    | cons second rest =>
      exact ((first second rfl).resolve_left kind).trans (later second List.mem_cons_self)

/-- A token of a text starts and stops on the same line. -/
theorem tokenize_stop_line {source : String} {token : Token} (member : token ∈ tokenize source) :
    token.range.stop.line = token.line := by
  rcases List.mem_append.mp member with inside | last
  · obtain ⟨_, _, _, piece, _⟩ := mem_linesTokens inside
    exact piece.line.2.trans piece.line.1.symm
  · rw [List.mem_singleton.mp last]
    rfl

/-- A problem in one statement: its place and its tokens are on one line, and no other statement
starts on them. -/
structure OnOneLine (range : Range) (skipped : List Token) : Prop where
  line : ∃ row, range.start.line = row ∧ range.stop.line = row ∧
    ∀ token ∈ skipped, token.range.start.line = row ∧ token.range.stop.line = row
  inner : ∀ token ∈ skipped, token.kind ≠ .endOfLine ∧ token.kind ≠ .endOfFile
  keywords : ∀ token ∈ skipped.tail,
    token.kind ∉ [.letWord, .setWord, .ifWord, .whileWord, .endWord]

theorem Skips.sublist {all passed skipped kept : List Token} {next : Token}
    (skips : Skips all passed skipped next) (some : kept.Sublist (passed ++ skipped)) :
    kept.Sublist all := by
  obtain ⟨⟨before, after, rfl⟩, _, _⟩ := skips
  refine some.trans ?_
  rw [← List.append_assoc passed]
  exact (List.sublist_append_left _ _).trans (List.sublist_append_right _ _)

/-- The tokens that are skipped in a text are on the line where reading resumes. -/
theorem Skips.line_eq {source : String} {passed skipped : List Token} {next : Token}
    (skips : Skips (tokenize source) passed skipped next)
    (inner : ∀ token ∈ passed ++ skipped, token.kind ≠ .endOfLine) :
    ∀ token ∈ passed ++ skipped,
      token.range.start.line = next.line ∧ token.range.stop.line = next.line := by
  intro token member
  have inText := (skips.sublist (List.Sublist.refl _)).subset member
  obtain ⟨⟨before, after, whole⟩, _, _⟩ := skips
  have chain := tokenize_adjoin source
  rw [whole, ← List.append_assoc passed] at chain
  have line := line_eq_of_isChain (List.isChain_append.mp chain).2.1 inner token member
  exact ⟨line, (tokenize_stop_line inText).trans line⟩

theorem TokenKind.inner_of_not_resumes {kind : TokenKind} (passed : kind.resumes = false) :
    (kind ≠ .endOfLine ∧ kind ≠ .endOfFile) ∧
      kind ∉ [.letWord, .setWord, .ifWord, .whileWord, .endWord] := by
  revert passed
  cases kind <;> decide

/-- The range of tokens on a line is on the line. -/
theorem Parser.rangeOf_line {tokens : List Token} {row : Int} {position : Position}
    (line : ∀ token ∈ tokens, token.range.start.line = row ∧ token.range.stop.line = row)
    (place : position.line = row) :
    (rangeOf tokens position).start.line = row ∧ (rangeOf tokens position).stop.line = row := by
  unfold rangeOf
  split
  · next first last head tail =>
    exact ⟨(line first (List.mem_of_head? head)).1, (line last (List.mem_of_getLast? tail)).2⟩
  · exact ⟨place, place⟩

/-- Behind a first token nothing that starts a statement is skipped. -/
theorem Skips.onOneLine {source : String} {passed skipped kept : List Token} {next : Token}
    (skips : Skips (tokenize source) passed skipped next) (few : passed.length ≤ 1)
    (first : ∀ token ∈ passed, token.kind ≠ .endOfLine ∧ token.kind ≠ .endOfFile)
    (some : kept ⊆ passed ++ skipped) :
    OnOneLine (Parser.rangeOf kept next.range.start) (passed ++ skipped) := by
  have later (token : Token) (member : token ∈ skipped) :=
    TokenKind.inner_of_not_resumes (skips.inner token member)
  have inner : ∀ token ∈ passed ++ skipped, token.kind ≠ .endOfLine ∧ token.kind ≠ .endOfFile :=
    List.forall_mem_append.mpr ⟨first, fun token member => (later token member).1⟩
  have line := skips.line_eq fun token member => (inner token member).1
  have range := Parser.rangeOf_line (fun token member => line token (some member)) rfl
  refine ⟨⟨next.line, range.1, range.2, line⟩, inner, fun token member => (later token ?_).2⟩
  rcases passed with _ | ⟨only, _ | ⟨second, rest⟩⟩
  · exact List.mem_of_mem_tail member
  · exact member
  · simp at few

/-- A problem other than a block that is left out is a matter of one line. -/
theorem Lost.onOneLine {source : String} {message : String} {range : Range} {skipped : List Token}
    (lost : Lost (tokenize source) (.error message range skipped))
    (shallow : message ≠ Complaint.nestedTooDeeply.message) : OnOneLine range skipped := by
  cases lost with
  | missing _ skips =>
    exact skips.onOneLine (Nat.zero_le 1) (List.forall_mem_nil _) (List.Subset.refl _)
  | @nameless keyword form _ _ binds _ skips =>
    have inner : keyword.kind ≠ .endOfLine ∧ keyword.kind ≠ .endOfFile := by
      constructor <;> intro kind <;> rw [kind] at binds <;> cases binds
    exact skips.onOneLine (Nat.le_refl 1) (List.forall_mem_singleton.mpr inner)
      (List.subset_cons_self _ _)
  | @unexpectedEnd token _ _ closes skips =>
    have inner : token.kind ≠ .endOfLine ∧ token.kind ≠ .endOfFile := by
      rw [closes]
      decide
    exact skips.onOneLine (Nat.le_refl 1) (List.forall_mem_singleton.mpr inner) (List.Subset.refl _)
  | unreadable passed skips =>
    have inner := (TokenKind.inner_of_not_resumes passed).1
    exact skips.onOneLine (Nat.le_refl 1) (List.forall_mem_singleton.mpr inner) (List.Subset.refl _)
  | tooDeep => exact absurd rfl shallow

theorem Parser.rangeOf_upright {tokens : List Token} (tiled : Tiled tokens) (position : Position) :
    (rangeOf tokens position).start ≤ (rangeOf tokens position).stop := by
  unfold rangeOf
  split
  · next first last head tail =>
    have upright := tiled.upright first (List.mem_of_head? head)
    exact Position.le_trans upright (tiled.stop_le_getLast tail (List.mem_of_head? head))
  · exact .inr rfl

/-- What is said of lost tokens is said of a range that starts before it stops. -/
theorem Lost.upright {all : List Token} (tiled : Tiled all) {problem : Node} (lost : Lost all problem) :
    ∀ report ∈ problem.report?, report.range.start ≤ report.range.stop := by
  have range {kept : List Token} (some : kept.Sublist all) (position : Position) :=
    Parser.rangeOf_upright (tiled.sublist some) position
  intro report said
  cases lost with
  | missing _ skips =>
    cases said
    exact range (skips.sublist (List.Sublist.refl _)) _
  | nameless _ _ skips =>
    cases said
    exact range (skips.sublist (List.sublist_cons_self _ _)) _
  | @unexpectedEnd _ _ next _ skips =>
    cases said
    exact range (skips.sublist (List.Sublist.refl _)) next.range.start
  | @unreadable _ _ next _ skips =>
    cases said
    exact range (skips.sublist (List.Sublist.refl _)) next.range.start
  | @tooDeep before keyword ahead eof beyond _ whole _ _ =>
    cases said
    have cut : (Parser.splitBlock 0 ahead).1.Sublist (ahead ++ eof :: beyond) := by
      refine List.Sublist.trans ?_ (List.sublist_append_left ahead _)
      have front := List.sublist_append_left (Parser.splitBlock 0 ahead).1 (Parser.splitBlock 0 ahead).2
      rwa [Parser.splitBlock_append] at front
    have block : (keyword :: (Parser.splitBlock 0 ahead).1).Sublist all := by
      rw [whole]
      exact (cut.cons_cons keyword).trans (List.sublist_append_right _ _)
    exact range block keyword.range.start

/-- Of two tokens in order the first is not on a later line. -/
theorem Tiled.line_le {tokens : List Token} (tiled : Tiled tokens) :
    tokens.Pairwise (·.line ≤ ·.line) := by
  refine tiled.ordered.imp_of_mem fun {first second} member _ order => ?_
  have start := Position.le_trans (tiled.upright first member) order
  rw [Position.le_iff] at start
  rw [Token.line, Token.line]
  omega

/-- The problems in the shape of a text are reported from its top to its bottom. -/
theorem parseTokens_rising (source : String) :
    (parseTokens (tokenize source)).2.Pairwise (·.line < ·.line) := by
  obtain ⟨eof, last, tokens⟩ := tokenize_eq source
  have lines := (tokenize_tiled source).line_le
  have ascends : (Parser.ofTokens (tokenize source)).Ascends := by
    rw [tokens] at lines ⊢
    rw [Parser.ofTokens_append_eof linesTokens_inner last]
    exact ⟨lines, .nil, List.forall_mem_nil _⟩
  exact ((Parser.program_proceeds _).ascends ascends).rising

/-- How the problems of a text are placed in it. -/
structure Model.WellPlaced (model : Model) : Prop where
  inside : ∀ diagnostic ∈ model.diagnostics,
    diagnostic.range.start ≤ diagnostic.range.stop ∧ diagnostic.range.Inside model.lines
  rising : model.shapeDiagnostics.Pairwise (·.line < ·.line)
  onOneLine : ∀ message range skipped, .error message range skipped ∈ model.root.errors →
    message ≠ "Blocks are nested too deeply." → OnOneLine range skipped
  apart : model.diagnostics.Pairwise (·.range.start ≠ ·.range.start)

/-- Every diagnostic of a text has a range in the text, and no two of them start at the same place.
Problems in the shape come in the order of their lines. But for a block that is left out, each one is
a matter of a single line. -/
theorem analyze_places_problems (source : String) (blockScoping : Bool) :
    ∃ model, analyze source blockScoping = .ok model ∧ model.WellPlaced := by
  have analyzed := analyze_eq source blockScoping
  refine ⟨_, analyzed, fun diagnostic member => ⟨?_, analyze_inside analyzed diagnostic member⟩,
    parseTokens_rising source, fun message range skipped wrong => ?_, analyze_starts_distinct analyzed⟩
  · rcases analyze_diagnostic_cases analyzed member with ⟨problem, lost, said⟩ | ⟨token, inText, range⟩
    · exact lost.upright (tokenize_tiled source) diagnostic said
    · rw [range]
      exact (tokenize_tiled source).upright token inText
  · exact (parseTokens_lost source _ wrong).onOneLine

/-- Two undefined names stand on a line with a problem behind them that takes up no room. -/
theorem analyze_places_problems_around_undefined_names :
    ∃ model, analyze "let = 1\nx + y if" false = .ok model ∧ model.WellPlaced ∧
      model.diagnostics.map (·.range) = [⟨⟨0, 4⟩, ⟨0, 7⟩⟩, ⟨⟨1, 6⟩, ⟨1, 6⟩⟩, ⟨⟨1, 0⟩, ⟨1, 1⟩⟩,
        ⟨⟨1, 4⟩, ⟨1, 5⟩⟩] := by
  obtain ⟨model, analyzed, placed⟩ := analyze_places_problems "let = 1\nx + y if" false
  have ranges : (analyze "let = 1\nx + y if" false).map (·.diagnostics.map (·.range)) = .ok
      [⟨⟨0, 4⟩, ⟨0, 7⟩⟩, ⟨⟨1, 6⟩, ⟨1, 6⟩⟩, ⟨⟨1, 0⟩, ⟨1, 1⟩⟩, ⟨⟨1, 4⟩, ⟨1, 5⟩⟩] := by
    decide +kernel
  rw [analyzed] at ranges
  exact ⟨model, analyzed, placed, Except.ok.inj ranges⟩

end LineScript
