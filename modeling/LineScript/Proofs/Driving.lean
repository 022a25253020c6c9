import LineScript.Proofs.Motion
import Mathlib.Logic.Function.Iterate

namespace LineScript

/-- A call of a parser that is driven by hand. Each may be made at any token. -/
inductive ParserCall where
  | peek (offset : Int)
  | advance
  | atomic
  | expression
  | statement
  | program
  | endMarker
  | binding (form : BindingForm)
  | block (form : BlockForm)
  | skipBlock
  | terminator
  | fail (message : String) (lead taken : List Token)
  | setDepth (depth : Int)

/-- The depth that a call sets by hand. -/
def ParserCall.newDepth? : ParserCall → Option Int
  | setDepth depth => some depth
  | _ => none

def Taken.answer (taken : Taken Node) : Taken (Except Fault (Option Node)) :=
  ⟨.ok (some taken.item), taken.rest⟩

namespace Parser

/-- What a call answers, and the parser behind it. Only a look at a token can fail. -/
def perform (parser : Parser) : ParserCall → Taken (Except Fault (Option Node))
  | .peek offset => ⟨(parser.peek offset).map (some ∘ .leaf), parser⟩
  | .advance => ⟨.ok (some (.leaf parser.advance.item)), parser.advance.rest⟩
  | .atomic => ⟨.ok parser.atomic?.item, parser.atomic?.rest⟩
  | .expression => parser.expression.answer
  | .statement => parser.statement.answer
  | .program => parser.program.answer
  | .endMarker => parser.endMarker.answer
  | .binding form => (parser.binding form).answer
  | .block form => (parser.block form).answer
  | .skipBlock => parser.skipBlock.answer
  | .terminator => parser.terminator.answer
  | .fail message lead taken => (parser.fail message lead taken).answer
  | .setDepth depth => ⟨.ok none, { parser with depth := depth }⟩

/-- Make calls one after the other. -/
def drive (parser : Parser) (calls : List ParserCall) : Parser :=
  calls.foldl (fun parser call => (parser.perform call).rest) parser

/-- A call reads on, or it sets the depth. -/
theorem perform_cases (parser : Parser) (call : ParserCall) :
    (call.newDepth? = none ∧ Advances parser (parser.perform call).rest) ∨
      ∃ depth, call = .setDepth depth := by
  cases call with
  | peek => exact .inl ⟨rfl, .refl parser⟩
  | advance => exact .inl ⟨rfl, parser.advance_advances⟩
  | atomic => exact .inl ⟨rfl, parser.atomic?_glides.advances⟩
  | expression => exact .inl ⟨rfl, parser.expression_glides.advances⟩
  | statement => exact .inl ⟨rfl, parser.statement_advances⟩
  | program => exact .inl ⟨rfl, parser.program_advances⟩
  | endMarker => exact .inl ⟨rfl, parser.advance_advances.trans parser.endMarker_glides.advances⟩
  | binding form => exact .inl ⟨rfl, parser.advance_advances.trans (parser.binding_glides form).advances⟩
  | block form => exact .inl ⟨rfl, parser.block_advances form⟩
  | skipBlock => exact .inl ⟨rfl, parser.skipBlock_advances⟩
  | terminator => exact .inl ⟨rfl, parser.terminator_glides.advances⟩
  | fail message lead taken => exact .inl ⟨rfl, (parser.fail_glides message lead taken).advances⟩
  | setDepth depth => exact .inr ⟨depth, rfl⟩

/-- At any token but the end of the file a block takes one. -/
theorem block_length_lt {parser : Parser} (more : parser.ahead ≠ []) (form : BlockForm) :
    (parser.block form).rest.ahead.length < parser.ahead.length := by
  obtain ⟨used, ahead, _⟩ := (Progress.finish_advances true
    ⟨.enter .empty (parser.header form).item, (parser.header form).rest⟩).passed
  have inside := header_length_lt form more
  have whole : (parser.header form).rest.ahead = used ++ (parser.block form).rest.ahead := ahead
  rw [whole, List.length_append] at inside
  omega

/-- So does a statement. -/
theorem statement_length_lt {parser : Parser} (more : parser.ahead ≠ []) :
    parser.statement.rest.ahead.length < parser.ahead.length := by
  rcases parser.statement_cases with ⟨_, skipped | ⟨form, read⟩⟩ | ⟨_, simple⟩
  · rw [skipped]
    exact skipBlock_length_lt more
  · rw [read]
    exact block_length_lt more form
  · rw [simple]
    exact simpleStatement_length_lt more

end Parser

/-- The loop over statements takes at most as many steps as there are tokens ahead, and it stops at the
end of the file or where no block is open. -/
theorem Progress.run_eq_iterate (single : Bool) (progress : Progress) :
    ∃ steps ≤ progress.parser.ahead.length, progress.run single = Nat.iterate step steps progress ∧
      ((progress.run single).parser.ahead = [] ∨
        single = true ∧ (progress.run single).draft.opened = []) := by
  fun_induction run single progress with
  | case1 progress ended => exact ⟨0, Nat.zero_le _, rfl, .inl ended⟩
  | case2 progress more done =>
    rw [Bool.and_eq_true, List.isEmpty_iff] at done
    exact ⟨0, Nat.zero_le _, rfl, .inr done⟩
  | case3 progress more busy shorter ih =>
    obtain ⟨steps, bound, same, stop⟩ := ih
    exact ⟨steps + 1, by omega, same, stop⟩

namespace Parser

/-- The list that a parser of some tokens works on. It ends with an end of the file. -/
def ended (tokens : List Token) : List Token :=
  if tokens.getLast?.any isEnd then tokens else tokens ++ [endAfter tokens]

theorem tokens_ofTokens (tokens : List Token) : (ofTokens tokens).tokens = ended tokens := by
  have whole := List.takeWhile_append_dropWhile (p := (!isEnd ·)) (l := tokens)
  unfold ofTokens ended
  dsimp only
  split
  · next none =>
    rw [none, List.append_nil] at whole
    have unended : ¬ tokens.getLast?.any isEnd := by
      rw [Option.any_eq_true]
      rintro ⟨last, tail, final⟩
      have kept : last ∈ tokens.takeWhile (!isEnd ·) := whole.symm ▸ List.mem_of_getLast? tail
      have inner := List.all_eq_true.mp List.all_takeWhile last kept
      simp [final] at inner
    rw [if_neg unended, Parser.tokens, remaining, whole]
    rfl
  · next eof beyond rest =>
    rw [rest] at whole
    split
    · exact whole
    · simpa [Parser.tokens, remaining] using congrArg (· ++ [endAfter tokens]) whole

/-- A state that a parser of a token list can be in: at one of the tokens, at most at the first end of
the file, with at most one problem on each line. -/
structure Stands (whole : List Token) (parser : Parser) : Prop where
  tokens : parser.tokens = whole
  current : whole[parser.cursor]? = some parser.current
  bound : parser.cursor ≤ whole.findIdx isEnd
  apart : parser.diagnostics.Pairwise (·.line ≠ ·.line)

/-- What a call may do: move on, report more, and set the depth if that is what it is for. -/
structure Obeys (call : ParserCall) (before after : Parser) : Prop where
  cursor : before.cursor ≤ after.cursor
  tokens : after.tokens = before.tokens
  told : before.diagnostics <+: after.diagnostics
  depth : after.depth = call.newDepth?.getD before.depth

theorem perform_obeys (parser : Parser) (call : ParserCall) :
    Obeys call parser (parser.perform call).rest := by
  rcases parser.perform_cases call with ⟨depth, advances⟩ | ⟨depth, rfl⟩
  · obtain ⟨used, _, read, _⟩ := advances.passed
    refine ⟨?_, advances.tokens, advances.told, by rw [depth, advances.depth]; rfl⟩
    simp only [cursor, read, List.length_append]
    omega
  · exact ⟨Nat.le_refl _, rfl, List.prefix_rfl, rfl⟩

theorem tokens_getElem?_cursor (parser : Parser) :
    parser.tokens[parser.cursor]? = some parser.current := by
  rw [tokens, cursor, ← List.length_reverse, List.getElem?_append_right (Nat.le_refl _), Nat.sub_self,
    remaining, current]
  cases parser.ahead <;> rfl

/-- No end of the file has been passed, and none is ahead. -/
structure Within (parser : Parser) : Prop where
  sane : parser.Sane
  behind : ∀ token ∈ parser.read, token.kind ≠ .endOfFile

namespace Within

theorem ofTokens (tokens : List Token) : (ofTokens tokens).Within where
  sane := ofTokens_sane tokens
  behind := by
    unfold Parser.ofTokens
    dsimp only
    split <;> exact List.forall_mem_nil _

variable {parser : Parser} (within : parser.Within)
include within

theorem advances {after : Parser} (advances : Advances parser after) : after.Within where
  sane := advances.sane within.sane
  behind token member := by
    obtain ⟨used, ahead, read, _⟩ := advances.passed
    rw [read] at member
    rcases List.mem_append.mp member with passed | before
    · exact within.sane.inner token (by simp [ahead, List.mem_reverse.mp passed])
    · exact within.behind token before

theorem perform (call : ParserCall) : (parser.perform call).rest.Within := by
  rcases parser.perform_cases call with ⟨_, advances⟩ | ⟨depth, rfl⟩
  · exact within.advances advances
  · exact ⟨⟨within.sane.inner, within.sane.last⟩, within.behind⟩

/-- The first end of the file is as far away as there are tokens ahead. -/
theorem findIdx_isEnd : parser.tokens.findIdx isEnd = parser.cursor + parser.ahead.length := by
  have early : ∀ token ∈ parser.read.reverse ++ parser.ahead, isEnd token = false := by
    intro token member
    rcases List.mem_append.mp member with passed | coming
    · simpa [isEnd] using within.behind token (List.mem_reverse.mp passed)
    · simpa [isEnd] using within.sane.inner token coming
  have last : isEnd parser.eof = true := by simpa [isEnd] using within.sane.last
  rw [tokens, remaining, ← List.append_assoc, List.findIdx_append,
    List.findIdx_eq_length_of_false early, if_neg (Nat.lt_irrefl _), List.findIdx_cons, last]
  simp [cursor]

theorem cursor_lt_statement (more : parser.current.kind ≠ .endOfFile) :
    parser.cursor < parser.statement.rest.cursor := by
  obtain ⟨rest, ahead⟩ := within.sane.exists_ahead more
  have shorter := @statement_length_lt parser (by simp [ahead])
  have gained := parser.statement_advances.cursor
  omega

end Within

/-- What a call reports is about lines without a problem so far. -/
theorem perform_apart {parser : Parser} (apart : parser.diagnostics.Pairwise (·.line ≠ ·.line))
    (call : ParserCall) : (parser.perform call).rest.diagnostics.Pairwise (·.line ≠ ·.line) := by
  rcases parser.perform_cases call with ⟨_, advances⟩ | ⟨depth, rfl⟩
  · exact advances.apart apart
  · exact apart

/-- What a driven parser keeps: its token list, its bounds, and one problem on each line. -/
theorem drive_keeps (tokens : List Token) (calls : List ParserCall) :
    ((ofTokens tokens).drive calls).tokens = ended tokens ∧
      ((ofTokens tokens).drive calls).Within ∧
      ((ofTokens tokens).drive calls).diagnostics.Pairwise (·.line ≠ ·.line) := by
  induction calls using List.reverseRecOn with
  | nil =>
    refine ⟨tokens_ofTokens tokens, .ofTokens tokens, ?_⟩
    rw [drive, List.foldl_nil, ofTokens_diagnostics]
    exact .nil
  | append_singleton calls call ih =>
    obtain ⟨whole, within, apart⟩ := ih
    rw [drive, List.foldl_append, List.foldl_cons, List.foldl_nil]
    exact ⟨(perform_obeys _ call).tokens.trans whole, within.perform call, perform_apart apart call⟩

end Parser

/-- Whatever calls a parser is driven with, it stays within its bounds: at a token of the list, which
does not change, at most at the first end of the file, and with at most one problem on each line. No
call moves it back or takes back what it has reported, and only one that sets the depth changes it. A
statement takes at least one token. And each loop over statements that starts here is over after at
most as many steps as there are tokens up to the end of the file. -/
theorem driven_parser_stays_within_bounds (tokens : List Token) (calls : List ParserCall) :
    let whole := Parser.ended tokens
    let parser := (Parser.ofTokens tokens).drive calls
    parser.Stands whole ∧
    (∀ call, Parser.Obeys call parser (parser.perform call).rest) ∧
    (parser.current.kind ≠ .endOfFile →
      parser.cursor < (parser.perform .statement).rest.cursor) ∧
    ∀ single draft, ∃ steps, parser.cursor + steps ≤ whole.findIdx Parser.isEnd ∧
      Progress.run single ⟨draft, parser⟩ = Nat.iterate Progress.step steps ⟨draft, parser⟩ ∧
      ((Progress.run single ⟨draft, parser⟩).parser.ahead = [] ∨
        single = true ∧ (Progress.run single ⟨draft, parser⟩).draft.opened = []) := by
  intro whole parser
  obtain ⟨same, within, apart⟩ : parser.tokens = whole ∧ parser.Within ∧
    parser.diagnostics.Pairwise (·.line ≠ ·.line) := Parser.drive_keeps tokens calls
  have last := within.findIdx_isEnd
  have here := parser.tokens_getElem?_cursor
  rw [same] at last here
  refine ⟨⟨same, here, by omega, apart⟩, parser.perform_obeys, within.cursor_lt_statement, ?_⟩
  intro single draft
  obtain ⟨steps, bound, run⟩ := Progress.run_eq_iterate single ⟨draft, parser⟩
  have fits : steps ≤ parser.ahead.length := bound
  exact ⟨steps, by omega, run⟩

/-- An end is read where none is due, and then a block at a depth that is set by hand. -/
theorem driven_parser_stays_within_bounds_at_full_depth :
    let tokens := tokenize "end\nif x\nlet"
    let parser := (Parser.ofTokens tokens).drive [.setDepth 200, .endMarker]
    parser.Stands (Parser.ended tokens) ∧ parser.cursor = 2 ∧ parser.current.kind = .ifWord ∧
      2 < (parser.perform .statement).rest.cursor ∧ (parser.perform .statement).rest.depth = 200 := by
  intro tokens parser
  obtain ⟨stands, obeys, moves, _⟩ :=
    driven_parser_stays_within_bounds tokens [.setDepth 200, .endMarker]
  have cursor : parser.cursor = 2 := by decide +kernel
  have kind : parser.current.kind = .ifWord := by decide +kernel
  have depth : parser.depth = 200 := by decide +kernel
  have moved : parser.cursor < _ := moves (kind ▸ by decide)
  exact ⟨stands, cursor, kind, cursor ▸ moved, (obeys .statement).depth.trans depth⟩

end LineScript
