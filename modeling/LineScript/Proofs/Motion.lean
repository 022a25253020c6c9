import LineScript.Proofs.Reporting

namespace LineScript

/-- Whether a keyword opens or closes a block. -/
def TokenKind.fences (kind : TokenKind) : Bool := kind.opensBlock || kind = .endWord

namespace Parser

/-- Reading has gone on from one state to another, past tokens of free kinds only. The token list is
the same, and what was reported stays, with at most one problem on each line. -/
structure Passes (free : TokenKind → Prop) (before after : Parser) : Prop where
  passed : ∃ used, before.ahead = used ++ after.ahead ∧ after.read = used.reverse ++ before.read ∧
    ∀ token ∈ used, free token.kind
  eof : after.eof = before.eof
  beyond : after.beyond = before.beyond
  depth : after.depth = before.depth
  told : before.diagnostics <+: after.diagnostics
  apart : before.diagnostics.Pairwise (·.line ≠ ·.line) →
    after.diagnostics.Pairwise (·.line ≠ ·.line)

/-- Reading past any tokens. -/
abbrev Advances : Parser → Parser → Prop := Passes fun _ => True

/-- Reading that neither enters nor leaves a block. -/
abbrev Glides : Parser → Parser → Prop := Passes fun kind => ¬ kind.fences

namespace Passes

variable {free : TokenKind → Prop} {before after : Parser}

theorem refl (parser : Parser) : Passes free parser parser :=
  ⟨⟨[], rfl, rfl, List.forall_mem_nil _⟩, rfl, rfl, rfl, List.prefix_rfl, id⟩

theorem trans {middle : Parser} (start : Passes free before middle)
    (next : Passes free middle after) : Passes free before after where
  passed := by
    obtain ⟨used, ahead, read, kinds⟩ := start.passed
    obtain ⟨more, later, behind, others⟩ := next.passed
    refine ⟨used ++ more, ?_, ?_, List.forall_mem_append.mpr ⟨kinds, others⟩⟩
    · rw [ahead, later, List.append_assoc]
    · rw [behind, read, List.reverse_append, List.append_assoc]
  eof := next.eof.trans start.eof
  beyond := next.beyond.trans start.beyond
  depth := next.depth.trans start.depth
  told := start.told.trans next.told
  apart := next.apart ∘ start.apart

theorem advances (passes : Passes free before after) : Advances before after where
  passed := by
    obtain ⟨used, ahead, read, _⟩ := passes.passed
    exact ⟨used, ahead, read, fun _ _ => trivial⟩
  eof := passes.eof
  beyond := passes.beyond
  depth := passes.depth
  told := passes.told
  apart := passes.apart

theorem tokens (passes : Passes free before after) : after.tokens = before.tokens := by
  obtain ⟨used, ahead, read, _⟩ := passes.passed
  simp [Parser.tokens, remaining, ahead, read, passes.eof, passes.beyond]

theorem sane (passes : Passes free before after) (sane : before.Sane) : after.Sane where
  inner token member := by
    obtain ⟨used, ahead, _⟩ := passes.passed
    exact sane.inner token (by rw [ahead]; exact List.mem_append_right _ member)
  last := by rw [passes.eof]; exact sane.last

/-- What the cursor gains is what is no longer ahead. -/
theorem cursor (passes : Passes free before after) :
    after.cursor + after.ahead.length = before.cursor + before.ahead.length := by
  obtain ⟨used, ahead, read, _⟩ := passes.passed
  simp only [Parser.cursor, ahead, read, List.length_append, List.length_reverse]
  omega

end Passes

theorem advance_passes {free : TokenKind → Prop} {parser : Parser} (fits : free parser.current.kind) :
    Passes free parser parser.advance.rest := by
  obtain ⟨read, ahead, eof, beyond, diagnostics, depth⟩ := parser
  cases ahead with
  | nil => exact .refl _
  | cons token ahead =>
    exact ⟨⟨[token], rfl, rfl, List.forall_mem_singleton.mpr fits⟩, rfl, rfl, rfl, List.prefix_rfl, id⟩

theorem advance_advances (parser : Parser) : Advances parser parser.advance.rest := advance_passes trivial

theorem report_passes {free : TokenKind → Prop} (parser : Parser) (message : String) (range : Range) :
    Passes free parser (parser.report message range) := by
  unfold report
  split
  · exact .refl parser
  · next fresh =>
    refine ⟨⟨[], rfl, rfl, List.forall_mem_nil _⟩, rfl, rfl, rfl, List.prefix_append _ _, fun apart => ?_⟩
    refine List.pairwise_append.mpr ⟨apart, List.pairwise_singleton _ _, ?_⟩
    simpa [Diagnostic.line, Diagnostic.warning] using fresh

/-- Where reading takes up again it has not passed a block. -/
theorem fences_of_resumes {kind : TokenKind} (passed : kind.resumes = false) : ¬ kind.fences := by
  revert passed
  cases kind <;> decide

theorem fail_glides (parser : Parser) (message : String) (lead taken : List Token) :
    Glides parser (parser.fail message lead taken).rest := by
  have skipped : Glides parser (parser.takeWhile (!·.kind.resumes)).rest := by
    refine ⟨⟨_, List.takeWhile_append_dropWhile.symm, rfl, ?_⟩, rfl, rfl, rfl, List.prefix_rfl, id⟩
    intro token member
    apply fences_of_resumes
    simpa using List.all_eq_true.mp List.all_takeWhile token member
  exact skipped.trans (report_passes _ _ _)

theorem complain_glides (parser : Parser) (complaint : Complaint) :
    Glides parser (parser.complain complaint).rest :=
  parser.fail_glides _ _ _

theorem misplaced_glides (parser : Parser) (complaint : Complaint) :
    Glides parser.advance.rest (parser.misplaced complaint).rest :=
  fail_glides _ _ _ _

theorem expect_glides {kind : TokenKind} (inner : ¬ kind.fences) (parser : Parser)
    (complaint : Complaint) : Glides parser (parser.expect kind complaint).rest := by
  unfold expect
  split
  · next here => exact advance_passes (of_decide_eq_true here ▸ inner)
  · exact parser.complain_glides complaint

theorem terminator_glides (parser : Parser) : Glides parser parser.terminator.rest :=
  expect_glides (by decide) parser _

theorem advance_glides_of_atomic {parser : Parser} (atomic : parser.current.isAtomic) :
    Glides parser parser.advance.rest := by
  refine advance_passes fun fence => ?_
  unfold Token.isAtomic at atomic
  cases kind : parser.current.kind <;> simp_all [TokenKind.isAtomic, TokenKind.fences, TokenKind.opensBlock]

theorem atomic?_glides (parser : Parser) : Glides parser parser.atomic?.rest := by
  unfold atomic?
  split
  · next atomic => exact advance_glides_of_atomic atomic
  · exact .refl parser

theorem operand_glides (parser : Parser) : Glides parser parser.operand.rest := by
  unfold operand
  split
  · next atomic => exact advance_glides_of_atomic atomic
  · exact parser.complain_glides _

theorem expressionTail_glides (parser : Parser) (left : Node) :
    Glides parser (parser.expressionTail left).rest := by
  have inside {kind : TokenKind} (here : parser.isAt kind) (inner : ¬ kind.fences) :
      Glides parser parser.advance.rest := advance_passes (of_decide_eq_true here ▸ inner)
  unfold expressionTail
  split
  · next sign => exact (inside sign (by decide)).trans (operand_glides _)
  split
  · next opening =>
    exact (inside opening (by decide)).trans ((atomic?_glides _).trans (expect_glides (by decide) _ _))
  · exact .refl parser

theorem expression_glides (parser : Parser) : Glides parser parser.expression.rest := by
  unfold expression
  split
  · exact parser.operand_glides.trans (expressionTail_glides _ _)
  · exact parser.complain_glides _

theorem expressionStatement_glides (parser : Parser) :
    Glides parser parser.expressionStatement.rest :=
  parser.expression_glides.trans (terminator_glides _)

theorem bindingValue_glides (parser : Parser) : Glides parser parser.bindingValue.rest := by
  unfold bindingValue
  split
  · next equals =>
    have kind : parser.current.kind = .operator := by simp_all [isEqualsSign]
    exact (advance_passes (by simp [kind, TokenKind.fences, TokenKind.opensBlock])).trans
      (expression_glides _)
  · exact parser.complain_glides _

/-- Whatever it takes for its keyword, a binding stays in its block behind it. -/
theorem binding_glides (parser : Parser) (form : BindingForm) :
    Glides parser.advance.rest (parser.binding form).rest := by
  unfold binding
  dsimp only
  split
  · next named =>
    have name : Glides parser.advance.rest parser.advance.rest.advance.rest :=
      advance_passes (of_decide_eq_true named ▸ (by decide))
    exact name.trans ((bindingValue_glides _).trans (terminator_glides _))
  · exact fail_glides _ _ _ _

theorem endMarker_glides (parser : Parser) : Glides parser.advance.rest parser.endMarker.rest := by
  unfold endMarker
  dsimp only
  split
  · next line => exact advance_passes (of_decide_eq_true line ▸ (by decide))
  · exact .refl _

theorem header_glides (parser : Parser) (form : BlockForm) :
    Glides parser.advance.rest (parser.header form).rest :=
  (expression_glides _).trans (terminator_glides _)

theorem simpleStatement_advances (parser : Parser) : Advances parser parser.simpleStatement.rest := by
  unfold simpleStatement
  split
  · exact parser.advance_advances.trans (binding_glides _ _).advances
  · exact parser.advance_advances.trans (binding_glides _ _).advances
  · exact parser.advance_advances.trans (misplaced_glides _ _).advances
  · exact parser.expressionStatement_glides.advances
  · exact parser.expressionStatement_glides.advances
  · exact parser.advance_advances.trans (misplaced_glides _ _).advances

/-- A statement that is no block is read without touching one. -/
theorem simpleStatement_glides {parser : Parser} (inner : ¬ parser.current.kind.fences) :
    Glides parser parser.simpleStatement.rest := by
  have first : Glides parser parser.advance.rest := advance_passes inner
  unfold simpleStatement
  split
  · exact first.trans (binding_glides _ _)
  · exact first.trans (binding_glides _ _)
  · exact first.trans (misplaced_glides _ _)
  · exact parser.expressionStatement_glides
  · exact parser.expressionStatement_glides
  · exact first.trans (misplaced_glides _ _)

theorem skipBlock_advances (parser : Parser) : Advances parser parser.skipBlock.rest := by
  refine parser.advance_advances.trans ?_
  let split := splitBlock 0 parser.advance.rest.ahead
  have skipped : Advances parser.advance.rest { parser.advance.rest with
      read := split.1.reverse ++ parser.advance.rest.read
      ahead := split.2 } :=
    ⟨⟨split.1, (splitBlock_append 0 _).symm, rfl, fun _ _ => trivial⟩, rfl, rfl, rfl,
      List.prefix_rfl, id⟩
  exact skipped.trans (report_passes _ _ _)

end Parser

namespace Progress

theorem enter_advances (progress : Progress) (form : BlockForm) :
    progress.parser.Advances (progress.enter form).parser := by
  unfold enter
  split
  · exact progress.parser.skipBlock_advances
  · exact progress.parser.advance_advances.trans (Parser.header_glides _ form).advances

theorem step_advances (progress : Progress) : progress.parser.Advances progress.step.parser := by
  unfold step
  split
  · exact progress.parser.advance_advances
  · exact progress.enter_advances _
  · exact progress.enter_advances _
  · split
    · exact progress.parser.simpleStatement_advances
    · exact progress.parser.advance_advances.trans (Parser.endMarker_glides _).advances
  · exact progress.parser.simpleStatement_advances

theorem run_advances (single : Bool) (progress : Progress) :
    progress.parser.Advances (progress.run single).parser := by
  fun_induction run single progress with
  | case1 progress ended => exact .refl _
  | case2 progress more done => exact .refl _
  | case3 progress more busy shorter ih => exact progress.step_advances.trans ih

theorem closeAll_advances (opened : Nat) (progress : Progress) :
    progress.parser.Advances (closeAll opened progress).parser := by
  induction opened generalizing progress with
  | zero => exact .refl _
  | succ opened ih => exact (progress.parser.complain_glides _).advances.trans (ih ⟨_, _⟩)

theorem finish_advances (single : Bool) (progress : Progress) :
    progress.parser.Advances (progress.finish single).parser :=
  (progress.run_advances single).trans (closeAll_advances _ _)

end Progress

namespace Parser

theorem block_advances (parser : Parser) (form : BlockForm) : Advances parser (parser.block form).rest :=
  (parser.advance_advances.trans (header_glides _ form).advances).trans
    (Progress.finish_advances true ⟨_, _⟩)

/-- What a statement is read as: at a keyword that opens a block, one that is skipped or read, and
otherwise none. -/
theorem statement_cases (parser : Parser) :
    (parser.current.kind.opensBlock ∧
      (parser.statement = parser.skipBlock ∨ ∃ form, parser.statement = parser.block form)) ∨
    (¬ parser.current.kind.opensBlock ∧ parser.statement = parser.simpleStatement) := by
  have nested (form : BlockForm) :
      (if maxNesting ≤ parser.depth then parser.skipBlock else parser.block form) = parser.skipBlock ∨
        ∃ form', (if maxNesting ≤ parser.depth then parser.skipBlock else parser.block form) =
          parser.block form' := by
    split
    · exact .inl rfl
    · exact .inr ⟨form, rfl⟩
  unfold statement
  dsimp only
  split
  · next kind => exact .inl ⟨by rw [kind]; decide, nested _⟩
  · next kind => exact .inl ⟨by rw [kind]; decide, nested _⟩
  · next conditional loop =>
    refine .inr ⟨?_, rfl⟩
    simp only [TokenKind.opensBlock, decide_eq_true_eq]
    rintro (here | here)
    · exact conditional here
    · exact loop here

theorem statement_advances (parser : Parser) : Advances parser parser.statement.rest := by
  rcases parser.statement_cases with ⟨_, skipped | ⟨form, read⟩⟩ | ⟨_, simple⟩
  · rw [skipped]
    exact parser.skipBlock_advances
  · rw [read]
    exact parser.block_advances form
  · rw [simple]
    exact parser.simpleStatement_advances

theorem program_advances (parser : Parser) : Advances parser parser.program.rest :=
  Progress.finish_advances false ⟨.empty, parser⟩

end Parser

end LineScript
