import LineScript.Proofs.Likeness

namespace LineScript

namespace Parser

theorem splitBlock_of_opensBlock {token : Token} (opens : token.kind.opensBlock) (opened : Nat)
    (rest : List Token) :
    (splitBlock opened (token :: rest)).2 = (splitBlock (opened + 1) rest).2 := by
  simp [splitBlock, opens]

theorem splitBlock_of_endWord {token : Token} (closes : token.kind = .endWord) (opened : Nat)
    (rest : List Token) :
    (splitBlock (opened + 1) (token :: rest)).2 = (splitBlock opened rest).2 := by
  simp [splitBlock, closes, TokenKind.opensBlock]

/-- The last end takes the end of its line with it. -/
theorem splitBlock_of_last_endWord {token : Token} (closes : token.kind = .endWord)
    (rest : List Token) :
    (splitBlock 0 (token :: rest)).2 =
      if rest.head?.any (·.kind = .endOfLine) then rest.drop 1 else rest := by
  unfold splitBlock
  rw [closes, if_neg (by decide), if_pos rfl]
  dsimp only
  split <;> rfl

theorem splitBlock_of_not_fences {token : Token} (free : ¬ token.kind.fences) (opened : Nat)
    (rest : List Token) :
    (splitBlock opened (token :: rest)).2 = (splitBlock opened rest).2 := by
  simp only [TokenKind.fences, Bool.or_eq_true, decide_eq_true_eq, not_or] at free
  simp [splitBlock, free]

theorem splitBlock_append_of_not_fences {used : List Token}
    (free : ∀ token ∈ used, ¬ token.kind.fences) (opened : Nat) (rest : List Token) :
    (splitBlock opened (used ++ rest)).2 = (splitBlock opened rest).2 := by
  induction used with
  | nil => rfl
  | cons token used ih =>
    rw [List.forall_mem_cons] at free
    rw [List.cons_append, splitBlock_of_not_fences free.1, ih free.2]

/-- The inner blocks end first, and those around them behind that. The end of line that the last of the
inner ones takes is of no use to the others. -/
theorem splitBlock_splitBlock (inner outer : Nat) (tokens : List Token) :
    (splitBlock outer (splitBlock inner tokens).2).2 = (splitBlock (inner + outer + 1) tokens).2 := by
  induction tokens generalizing inner with
  | nil => rfl
  | cons token rest ih =>
    by_cases opens : token.kind.opensBlock
    · rw [splitBlock_of_opensBlock opens, splitBlock_of_opensBlock opens, ih]
      congr 2
      omega
    by_cases closes : token.kind = .endWord
    · cases inner with
      | zero =>
        rw [splitBlock_of_last_endWord closes, splitBlock_of_endWord closes, Nat.zero_add]
        cases rest with
        | nil => rfl
        | cons next rest =>
          by_cases line : next.kind = .endOfLine
          · rw [splitBlock_of_not_fences (by rw [line]; decide)]
            simp [line]
          · simp [line]
      | succ inner =>
        rw [splitBlock_of_endWord closes, splitBlock_of_endWord closes, ih]
        congr 2
        omega
    · have free : ¬ token.kind.fences := by simp [TokenKind.fences, opens, closes]
      rw [splitBlock_of_not_fences free, splitBlock_of_not_fences free, ih]

/-- What is left of some tokens behind the ends of the blocks that are open. -/
def behindBlocks : Nat → List Token → List Token
  | 0, tokens => tokens
  | opened + 1, tokens => (splitBlock opened tokens).2

theorem behindBlocks_nil (opened : Nat) : behindBlocks opened [] = [] := by
  cases opened <;> rfl

/-- Reading on within a block does not change where it ends. -/
theorem Passes.behindBlocks {before after : Parser} (glides : Glides before after) (opened : Nat) :
    behindBlocks (opened + 1) after.ahead = behindBlocks (opened + 1) before.ahead := by
  obtain ⟨used, ahead, _, free⟩ := glides.passed
  rw [ahead]
  exact (splitBlock_append_of_not_fences free opened after.ahead).symm

theorem advance_ahead (parser : Parser) : parser.advance.rest.ahead = parser.ahead.tail := by
  unfold advance
  split <;> simp [*]

theorem ahead_eq_cons {parser : Parser} (more : parser.ahead ≠ []) :
    parser.ahead = parser.current :: parser.advance.rest.ahead := by
  obtain ⟨token, rest, ahead⟩ := List.exists_cons_of_ne_nil more
  rw [advance_ahead, current, ahead]
  rfl

/-- Where a block starts there is one more to end. -/
theorem behindBlocks_of_opensBlock {parser : Parser} (more : parser.ahead ≠ [])
    (opens : parser.current.kind.opensBlock) (opened : Nat) :
    behindBlocks (opened + 1) parser.ahead = behindBlocks (opened + 2) parser.advance.rest.ahead := by
  rw [ahead_eq_cons more]
  exact splitBlock_of_opensBlock opens opened _

/-- An end marker takes the end of its line with it. -/
theorem endMarker_ahead (parser : Parser) :
    parser.endMarker.rest.ahead =
      if parser.advance.rest.ahead.head?.any (·.kind = .endOfLine) then
        parser.advance.rest.ahead.drop 1
      else parser.advance.rest.ahead := by
  unfold endMarker isAt
  dsimp only
  generalize parser.advance.item = keyword, parser.advance.rest = behind
  cases ahead : behind.ahead with
  | nil => split <;> simp [advance_ahead, ahead]
  | cons next rest =>
    rw [current, ahead, List.head?_cons, Option.getD_some]
    by_cases line : next.kind = .endOfLine
    · simp [line, advance_ahead, ahead]
    · simp [line, ahead]

/-- An end leaves one block fewer to end. -/
theorem behindBlocks_of_endWord {parser : Parser} (more : parser.ahead ≠ [])
    (closes : parser.current.kind = .endWord) (opened : Nat) :
    behindBlocks (opened + 1) parser.ahead = behindBlocks opened parser.endMarker.rest.ahead := by
  cases opened with
  | zero =>
    rw [ahead_eq_cons more, endMarker_ahead]
    exact splitBlock_of_last_endWord closes _
  | succ opened =>
    rw [parser.endMarker_glides.behindBlocks, ahead_eq_cons more]
    exact splitBlock_of_endWord closes opened _

theorem skipBlock_ahead (parser : Parser) :
    parser.skipBlock.rest.ahead = behindBlocks 1 parser.advance.rest.ahead := by
  simp [skipBlock, behindBlocks]

end Parser

namespace Progress

/-- What is left behind all the blocks that are open. -/
def leaves (progress : Progress) : List Token :=
  Parser.behindBlocks progress.draft.opened.length progress.parser.ahead

variable {progress : Progress}

theorem enter_leaves (more : progress.parser.ahead ≠ []) (busy : progress.draft.opened ≠ [])
    (opens : progress.parser.current.kind.opensBlock) (form : BlockForm) :
    (progress.enter form).leaves = progress.leaves := by
  obtain ⟨opened, count⟩ := Nat.exists_eq_succ_of_ne_zero (mt List.length_eq_zero_iff.mp busy)
  unfold enter
  split
  · simp only [leaves, add, Draft.opened_add_length, count]
    rw [Parser.behindBlocks_of_opensBlock more opens, Parser.skipBlock_ahead]
    exact (Parser.splitBlock_splitBlock 0 opened _).trans (by rw [Nat.zero_add]; rfl)
  · simp only [leaves, Draft.enter, List.length_cons, count]
    rw [Parser.behindBlocks_of_opensBlock more opens]
    exact (progress.parser.header_glides form).behindBlocks _

theorem step_leaves (more : progress.parser.ahead ≠ []) (busy : progress.draft.opened ≠ []) :
    progress.step.leaves = progress.leaves := by
  obtain ⟨opened, count⟩ := Nat.exists_eq_succ_of_ne_zero (mt List.length_eq_zero_iff.mp busy)
  unfold step
  split
  · next kind =>
    simp only [leaves, count]
    exact (Parser.advance_passes (by rw [kind]; decide)).behindBlocks opened
  · next kind => exact enter_leaves more busy (by rw [kind]; decide) _
  · next kind => exact enter_leaves more busy (by rw [kind]; decide) _
  · next kind =>
    rw [if_neg (by simpa using busy)]
    simp only [leaves, opened_close_length count, count]
    exact (Parser.behindBlocks_of_endWord more kind opened).symm
  · next line conditional loop ending =>
    have free : ¬ progress.parser.current.kind.fences := by
      simp only [TokenKind.fences, TokenKind.opensBlock, Bool.or_eq_true, decide_eq_true_eq]
      rintro ((here | here) | here)
      · exact conditional here
      · exact loop here
      · exact ending here
    simp only [leaves, add, Draft.opened_add_length, count]
    exact (Parser.simpleStatement_glides free).behindBlocks opened

/-- Reading until no block is open stops right behind the ends of those that were. -/
theorem run_ahead_eq_leaves (progress : Progress) :
    (progress.run true).parser.ahead = progress.leaves := by
  fun_induction run true progress with
  | case1 progress ended => rw [leaves, ended, Parser.behindBlocks_nil]
  | case2 progress more done =>
    have closed : progress.draft.opened = [] := by simpa using done
    rw [leaves, closed]
    rfl
  | case3 progress more busy shorter ih => rw [ih, step_leaves more (by simpa using busy)]

theorem finish_ahead_eq_leaves (progress : Progress) :
    (progress.finish true).parser.ahead = progress.leaves := by
  obtain ⟨_, _, _, stop⟩ := progress.run_eq_iterate true
  rw [← run_ahead_eq_leaves]
  unfold finish
  dsimp only
  rcases stop with ended | ⟨_, closed⟩
  · obtain ⟨used, ahead, _⟩ := (closeAll_advances (progress.run true).draft.opened.length
      (progress.run true)).passed
    rw [ended] at ahead ⊢
    exact (List.append_eq_nil_iff.mp ahead.symm).2
  · rw [closed]
    rfl

end Progress

namespace Parser

theorem block_ahead_eq_skipBlock (parser : Parser) (form : BlockForm) :
    (parser.block form).rest.ahead = parser.skipBlock.rest.ahead := by
  rw [skipBlock_ahead, ← (parser.header_glides form).behindBlocks]
  exact Progress.finish_ahead_eq_leaves ⟨.enter .empty (parser.header form).item, (parser.header form).rest⟩

theorem block_cursor_eq_skipBlock (parser : Parser) (form : BlockForm) :
    (parser.block form).rest.cursor = parser.skipBlock.rest.cursor := by
  have read := (parser.block_advances form).cursor
  have skipped := parser.skipBlock_advances.cursor
  rw [block_ahead_eq_skipBlock] at read
  omega

theorem block_alike_skipBlock (parser : Parser) (form : BlockForm) :
    (parser.block form).rest.Alike parser.skipBlock.rest where
  ahead := parser.block_ahead_eq_skipBlock form
  eof := (parser.block_advances form).eof.trans parser.skipBlock_advances.eof.symm
  depth := (parser.block_advances form).depth.trans parser.skipBlock_advances.depth.symm

/-- What a parser answers to calls that are made one after the other. -/
def answers (parser : Parser) : List ParserCall → List (Except Fault (Option Node))
  | [] => []
  | call :: calls => (parser.perform call).item :: (parser.perform call).rest.answers calls

theorem perform_beyond (parser : Parser) (call : ParserCall) :
    (parser.perform call).rest.beyond = parser.beyond := by
  rcases parser.perform_cases call with ⟨_, advances⟩ | ⟨depth, rfl⟩
  · exact advances.beyond
  · rfl

theorem Alike.answers {first second : Parser} (alike : first.Alike second)
    (tokens : first.tokens = second.tokens) (beyond : first.beyond = second.beyond)
    (calls : List ParserCall) :
    first.answers calls = second.answers calls := by
  induction calls generalizing first second with
  | nil => rfl
  | cons call calls ih =>
    have same := alike.perform tokens beyond call
    have kept : (first.perform call).rest.tokens = (second.perform call).rest.tokens := by
      rw [(first.perform_obeys call).tokens, (second.perform_obeys call).tokens, tokens]
    rw [Parser.answers, Parser.answers, same.item,
      ih same.rest kept (by rw [perform_beyond, perform_beyond, beyond])]

theorem skipBlock_cursor_withDepth (parser : Parser) (depth : Int) :
    ({ parser with depth := depth }).skipBlock.rest.cursor = parser.skipBlock.rest.cursor := by
  have skipped := parser.skipBlock_advances.cursor
  have other := ({ parser with depth := depth }).skipBlock_advances.cursor
  rw [skipBlock_ahead, advance_ahead] at skipped other
  dsimp only [cursor] at skipped other ⊢
  omega

/-- How deep a block counts as nested, and so whether it is read or skipped, makes no difference to
where it ends. -/
theorem statement_cursor_withDepth {parser : Parser} (opens : parser.current.kind.opensBlock)
    (depth : Int) :
    ({ parser with depth := depth }).statement.rest.cursor = parser.skipBlock.rest.cursor := by
  rcases ({ parser with depth := depth }).statement_cases with ⟨_, skipped | ⟨form, read⟩⟩ | ⟨closed, _⟩
  · rw [skipped, skipBlock_cursor_withDepth]
  · rw [read, block_cursor_eq_skipBlock, skipBlock_cursor_withDepth]
  · exact absurd opens closed

end Parser

/-- A block that is skipped takes the tokens that it takes when it is read, whatever the current
token is. So a limit on the depth, wherever it is set, does not change where a block ends, and the
calls behind it give the same answers. -/
theorem skipped_block_ends_where_read_block_does (parser : Parser) (form : BlockForm) :
    (parser.block form).rest.cursor = parser.skipBlock.rest.cursor ∧
    (parser.block form).rest.tokens = parser.skipBlock.rest.tokens ∧
    (∀ calls, (parser.block form).rest.answers calls = parser.skipBlock.rest.answers calls) ∧
    (parser.current.kind.opensBlock → ∀ depth : Int,
      ({ parser with depth := depth }).statement.rest.cursor = parser.skipBlock.rest.cursor) := by
  have read := parser.block_advances form
  have skipped := parser.skipBlock_advances
  have tokens := read.tokens.trans skipped.tokens.symm
  refine ⟨parser.block_cursor_eq_skipBlock form, tokens, ?_, Parser.statement_cursor_withDepth⟩
  exact (parser.block_alike_skipBlock form).answers tokens (read.beyond.trans skipped.beyond.symm)

/-- Two broken blocks end on one line, and an end too many follows on the next. -/
theorem skipped_block_ends_where_read_block_does_in_broken_text :
    let parser := Parser.ofTokens (tokenize "if )\nwhile\nlet\nend end\nend z")
    (parser.block .loop).rest.cursor = 10 ∧
      parser.statement.rest.cursor = 10 ∧
      ({ parser with depth := maxNesting }).statement.rest.cursor = 10 := by
  intro parser
  have skipped : parser.skipBlock.rest.cursor = 10 := by decide +kernel
  obtain ⟨read, _, _, statement⟩ := skipped_block_ends_where_read_block_does parser .loop
  have nested := statement (by decide +kernel)
  exact ⟨read.trans skipped, (nested parser.depth).trans skipped, (nested maxNesting).trans skipped⟩

end LineScript
