import LineScript.Proofs.Recovery

namespace LineScript

namespace Node

/-- What is left of failed constructs in a list of nodes, in the order of the walk. -/
def errorsOf (nodes : List Node) : List Node := (walkOf nodes).filter isError

@[simp] theorem errors_leaf (token : Token) : (leaf token).errors = [] := rfl

@[simp] theorem errors_atomic (token : Token) : (atomic token).errors = [] := rfl

@[simp] theorem errors_endMarker (keyword : Token) (terminator : Option Token) :
    (endMarker keyword terminator).errors = [] := rfl

@[simp] theorem errors_error (message : String) (range : Range) (skipped : List Token) :
    (error message range skipped).errors = [error message range skipped] := rfl

@[simp] theorem errors_binary (left : Node) (operator : Token) (right : Node) :
    (binary left operator right).errors = left.errors ++ right.errors :=
  List.filter_append left.walk right.walk

@[simp] theorem errors_call (callee : Node) (opening : Token) (argument : Option Node)
    (closing : Node) :
    (call callee opening argument closing).errors =
      callee.errors ++ (errorsOf argument.toList ++ closing.errors) := by
  cases argument <;> simp [errors, errorsOf, walk, walkOf, isError]

@[simp] theorem errors_binding (form : BindingForm) (keyword name : Token) (equals : Option Token)
    (value terminator : Node) :
    (binding form keyword name equals value terminator).errors =
      value.errors ++ terminator.errors :=
  List.filter_append value.walk terminator.walk

@[simp] theorem errors_expression (value terminator : Node) :
    (expression value terminator).errors = value.errors ++ terminator.errors :=
  List.filter_append value.walk terminator.walk

@[simp] theorem errors_block (form : BlockForm) (keyword : Token) (condition headerEnd : Node)
    (body : List Node) (ending : Node) :
    (block form keyword condition headerEnd body ending).errors =
      condition.errors ++ (headerEnd.errors ++ (errorsOf body ++ ending.errors)) := by
  simp [errors, errorsOf, walk, isError]

@[simp] theorem errors_program (statements : List Node) (eof : Token) :
    (program statements eof).errors = errorsOf statements := rfl

@[simp] theorem errorsOf_nil : errorsOf [] = [] := rfl

@[simp] theorem errorsOf_cons (node : Node) (rest : List Node) :
    errorsOf (node :: rest) = node.errors ++ errorsOf rest :=
  List.filter_append node.walk (walkOf rest)

@[simp] theorem errorsOf_append (first second : List Node) :
    errorsOf (first ++ second) = errorsOf first ++ errorsOf second := by
  induction first with
  | nil => rfl
  | cons node rest ih => simp [ih]

end Node

/-- Report one more problem unless its line has one already. -/
def note (diagnostics : List Diagnostic) : Node → List Diagnostic
  | .error message range _ =>
    if diagnostics.any (·.range.start.line = range.start.line) then diagnostics
    else diagnostics ++ [.warning message range]
  | _ => diagnostics

namespace Parser

/-- Reading has passed the tokens `used`, and all that it has reported are the problems `errors`, each
of them with tokens of the list that are lost. -/
structure Reads (before : Parser) (used : List Token) (errors : List Node) (after : Parser) :
    Prop where
  ahead : before.ahead = used ++ after.ahead
  read : after.read = used.reverse ++ before.read
  eof : after.eof = before.eof
  beyond : after.beyond = before.beyond
  depth : after.depth = before.depth
  told : after.diagnostics = errors.foldl note before.diagnostics
  lost : ∀ problem ∈ errors, Lost before.tokens problem

theorem Reads.refl (parser : Parser) : Reads parser [] [] parser :=
  ⟨rfl, rfl, rfl, rfl, rfl, rfl, by simp⟩

/-- No reading changes the token list. -/
theorem Reads.tokens {before after : Parser} {used : List Token} {errors : List Node}
    (reads : Reads before used errors after) : after.tokens = before.tokens := by
  simp [Parser.tokens, remaining, reads.ahead, reads.read, reads.eof, reads.beyond]

theorem Reads.trans {first second third : Parser} {used more : List Token}
    {errors others : List Node} (start : Reads first used errors second)
    (next : Reads second more others third) :
    Reads first (used ++ more) (errors ++ others) third where
  ahead := by rw [start.ahead, next.ahead, List.append_assoc]
  read := by rw [next.read, start.read, List.reverse_append, List.append_assoc]
  eof := next.eof.trans start.eof
  beyond := next.beyond.trans start.beyond
  depth := next.depth.trans start.depth
  told := by rw [next.told, start.told, List.foldl_append]
  lost := List.forall_mem_append.mpr ⟨start.lost, start.tokens ▸ next.lost⟩

theorem current_of_ahead {parser : Parser} {token : Token} {rest : List Token}
    (ahead : parser.ahead = token :: rest) : parser.current = token := by
  simp [current, ahead]

/-- Only the end of the file is of its kind: it never stands ahead. -/
structure Sane (parser : Parser) : Prop where
  inner : ∀ token ∈ parser.ahead, token.kind ≠ .endOfFile
  last : parser.eof.kind = .endOfFile

theorem Reads.sane {before after : Parser} {used : List Token} {errors : List Node}
    (reads : Reads before used errors after) (sane : before.Sane) : after.Sane where
  inner token member := sane.inner token (by rw [reads.ahead]; exact List.mem_append_right _ member)
  last := by rw [reads.eof]; exact sane.last

/-- A parser that sees anything but the end of the file has it ahead. -/
theorem Sane.exists_ahead {parser : Parser} (sane : parser.Sane)
    (more : parser.current.kind ≠ .endOfFile) :
    ∃ rest, parser.ahead = parser.current :: rest := by
  unfold current at more ⊢
  cases ahead : parser.ahead with
  | nil => simp [ahead, sane.last] at more
  | cons token rest => exact ⟨rest, rfl⟩

/-- Passing the current token, whatever it is but the end of the file. -/
theorem Sane.advance_reads {parser : Parser} (sane : parser.Sane)
    (more : parser.current.kind ≠ .endOfFile) :
    ∃ after, parser.advance = ⟨parser.current, after⟩ ∧ Reads parser [parser.current] [] after := by
  obtain ⟨rest, ahead⟩ := sane.exists_ahead more
  unfold advance
  rw [ahead]
  exact ⟨_, rfl, ahead, rfl, rfl, rfl, rfl, rfl, by simp⟩

theorem takeWhile_reads (parser : Parser) (keep : Token → Bool) :
    Reads parser (parser.takeWhile keep).item [] (parser.takeWhile keep).rest :=
  ⟨(List.takeWhile_append_dropWhile (p := keep)).symm, rfl, rfl, rfl, rfl, rfl, by simp⟩

theorem report_reads {parser : Parser} {message : String} {range : Range} {skipped : List Token}
    (lost : Lost parser.tokens (.error message range skipped)) :
    Reads parser [] [.error message range skipped] (parser.report message range) := by
  unfold report
  split
  · next seen => exact ⟨rfl, rfl, rfl, rfl, rfl, by simp [note, seen], by simpa using lost⟩
  · next fresh => exact ⟨rfl, rfl, rfl, rfl, rfl, by simp [note, fresh], by simpa using lost⟩

/-- Reading resumes at the current token or at one behind it, at the latest at the end of the
file. -/
theorem Sane.exists_resuming {parser : Parser} (sane : parser.Sane) :
    ∃ after, parser.remaining = (parser.takeWhile (!·.kind.resumes)).item ++
        (parser.takeWhile (!·.kind.resumes)).rest.current :: after ∧
      (parser.takeWhile (!·.kind.resumes)).rest.current.kind.resumes = true := by
  have whole : parser.remaining = (parser.takeWhile (!·.kind.resumes)).item ++
      (parser.ahead.dropWhile (!·.kind.resumes) ++ parser.eof :: parser.beyond) := by
    rw [← List.append_assoc, takeWhile, List.takeWhile_append_dropWhile, remaining]
  cases rest : parser.ahead.dropWhile (!·.kind.resumes) with
  | nil =>
    rw [rest] at whole
    refine ⟨parser.beyond, by simpa [current, takeWhile, rest] using whole, ?_⟩
    simp only [current, takeWhile, rest, List.head?_nil, Option.getD_none, sane.last]
    rfl
  | cons next more =>
    rw [rest] at whole
    refine ⟨more ++ parser.eof :: parser.beyond, by simpa [current, takeWhile, rest] using whole, ?_⟩
    have stop := List.head?_dropWhile_not (!·.kind.resumes) parser.ahead
    rw [rest] at stop
    simpa [current, takeWhile, rest] using stop

/-- Giving up keeps the leading tokens, those taken before, and all that is skipped. -/
theorem fail_reads {parser : Parser} (sane : parser.Sane) (message : String) (lead taken : List Token)
    (lost : ∀ skipped next after, parser.remaining = skipped ++ next :: after →
      (∀ token ∈ skipped, token.kind.resumes = false) → next.kind.resumes = true →
      Lost parser.tokens (.error message (rangeOf (taken ++ skipped) next.range.start)
        (lead ++ (taken ++ skipped)))) :
    ∃ skipped range, (parser.fail message lead taken).item =
        .error message range (lead ++ (taken ++ skipped)) ∧
      Reads parser skipped (parser.fail message lead taken).item.errors
        (parser.fail message lead taken).rest := by
  obtain ⟨after, remaining, stop⟩ := sane.exists_resuming
  have inner : ∀ token ∈ (parser.takeWhile (!·.kind.resumes)).item, token.kind.resumes = false := by
    intro token member
    simpa using List.all_eq_true.mp List.all_takeWhile token member
  have passed := parser.takeWhile_reads (!·.kind.resumes)
  refine ⟨_, _, rfl, ?_⟩
  rw [← List.append_nil (parser.takeWhile _).item]
  refine passed.trans (report_reads ?_)
  rw [passed.tokens]
  exact lost _ _ after remaining inner stop

theorem complain_reads {parser : Parser} (sane : parser.Sane) (complaint : Complaint)
    (missing : complaint.isMissing) :
    ∃ used, Reads parser used (parser.complain complaint).item.errors
        (parser.complain complaint).rest ∧
      Grammar.keptFailures complaint used (parser.complain complaint).item := by
  obtain ⟨skipped, range, item, reads⟩ := fail_reads sane complaint.message [] []
    fun skipped next after remaining inner stop =>
      .missing missing (skips_of_remaining rfl remaining inner stop)
  exact ⟨skipped, reads, range, item⟩

/-- Giving up on the current token and what follows it. -/
theorem misplaced_reads {parser : Parser} (sane : parser.Sane) {complaint : Complaint}
    (more : parser.current.kind ≠ .endOfFile)
    (lost : ∀ skipped next, Skips parser.tokens [parser.current] skipped next →
      Lost parser.tokens (.error complaint.message
        (rangeOf (parser.current :: skipped) next.range.start) (parser.current :: skipped))) :
    ∃ used, Reads parser used (parser.misplaced complaint).item.errors
        (parser.misplaced complaint).rest ∧
      Grammar.keptFailures complaint used (parser.misplaced complaint).item := by
  obtain ⟨after, advanced, first⟩ := sane.advance_reads more
  simp only [misplaced, advanced]
  obtain ⟨skipped, range, item, reads⟩ := fail_reads (first.sane sane) complaint.message []
    [parser.current] fun skipped next beyond remaining inner stop => by
      have skips := skips_of_remaining first.read remaining inner stop
      rw [first.tokens] at skips ⊢
      exact lost skipped next skips
  exact ⟨parser.current :: skipped, first.trans reads, range, item⟩

open Grammar

theorem expect_reads {parser : Parser} (sane : parser.Sane) {kind : TokenKind}
    {complaint : Complaint} (missing : complaint.isMissing) (inner : kind ≠ .endOfFile) :
    ∃ used, Reads parser used (parser.expect kind complaint).item.errors
        (parser.expect kind complaint).rest ∧
      Expected keptFailures kind complaint used (parser.expect kind complaint).item := by
  unfold expect
  split
  · next here =>
    have found : parser.current.kind = kind := by simpa [isAt] using here
    obtain ⟨after, advanced, reads⟩ := sane.advance_reads (found ▸ inner)
    simp only [advanced]
    exact ⟨[parser.current], reads, .found found⟩
  · obtain ⟨used, reads, failed⟩ := complain_reads sane complaint missing
    exact ⟨used, reads, .missed failed⟩

theorem terminator_reads {parser : Parser} (sane : parser.Sane) :
    ∃ used, Reads parser used parser.terminator.item.errors parser.terminator.rest ∧
      Terminator keptFailures used parser.terminator.item :=
  expect_reads sane rfl (by decide)

theorem Sane.atomic_reads {parser : Parser} (sane : parser.Sane)
    (atomic : parser.current.isAtomic) :
    ∃ after, parser.advance = ⟨parser.current, after⟩ ∧ Reads parser [parser.current] [] after := by
  apply sane.advance_reads
  intro last
  simp [Token.isAtomic, TokenKind.isAtomic, last] at atomic

theorem operand_reads {parser : Parser} (sane : parser.Sane) :
    ∃ used, Reads parser used parser.operand.item.errors parser.operand.rest ∧
      Atom keptFailures used parser.operand.item := by
  unfold operand
  split
  · next atomic =>
    obtain ⟨after, advanced, reads⟩ := sane.atomic_reads atomic
    simp only [advanced]
    exact ⟨[parser.current], reads, .found atomic⟩
  · obtain ⟨used, reads, failed⟩ := complain_reads sane .expectedExpression rfl
    exact ⟨used, reads, .missed failed⟩

/-- What follows a callee and its opening parenthesis. -/
theorem closing_reads {parser : Parser} (sane : parser.Sane) :
    ∃ used, Reads parser used (parser.expect .rightParen .expectedRightParen).item.errors
        (parser.expect .rightParen .expectedRightParen).rest ∧
      Expected keptFailures .rightParen .expectedRightParen used
        (parser.expect .rightParen .expectedRightParen).item :=
  expect_reads sane rfl (by decide)

/-- An expression that starts with an operand is that operand and its tail. -/
theorem expressionTail_reads {parser : Parser} (sane : parser.Sane) {left : Token}
    (atomic : left.isAtomic) :
    ∃ used, Reads parser used (parser.expressionTail (.atomic left)).item.errors
        (parser.expressionTail (.atomic left)).rest ∧
      Expression keptFailures (left :: used) (parser.expressionTail (.atomic left)).item := by
  unfold expressionTail
  split
  · next here =>
    have kind : parser.current.kind = .operator := by simpa [isAt] using here
    obtain ⟨after, advanced, first⟩ := sane.advance_reads (by simp [kind])
    simp only [advanced]
    obtain ⟨used, reads, right⟩ := operand_reads (first.sane sane)
    exact ⟨parser.current :: used, by simpa using first.trans reads, .binary atomic kind right⟩
  split
  · next here =>
    have kind : parser.current.kind = .leftParen := by simpa [isAt] using here
    obtain ⟨inside, advanced, first⟩ := sane.advance_reads (by simp [kind])
    simp only [advanced, atomic?]
    split
    · next argument =>
      obtain ⟨after, advanced, second⟩ := (first.sane sane).atomic_reads argument
      simp only [advanced]
      obtain ⟨used, reads, closing⟩ := closing_reads (second.sane (first.sane sane))
      exact ⟨parser.current :: inside.current :: used,
        by simpa using first.trans (second.trans reads), .callWith atomic kind argument closing⟩
    · obtain ⟨used, reads, closing⟩ := closing_reads (first.sane sane)
      exact ⟨parser.current :: used, by simpa using first.trans reads, .call atomic kind closing⟩
  · exact ⟨[], by simpa using Reads.refl parser, .operand (.found atomic)⟩

theorem expression_reads {parser : Parser} (sane : parser.Sane) :
    ∃ used, Reads parser used parser.expression.item.errors parser.expression.rest ∧
      Expression keptFailures used parser.expression.item := by
  unfold expression
  split
  · next atomic =>
    obtain ⟨after, advanced, first⟩ := sane.atomic_reads atomic
    simp only [operand, if_pos atomic, advanced]
    obtain ⟨used, reads, expression⟩ := expressionTail_reads (first.sane sane) atomic
    exact ⟨parser.current :: used, first.trans reads, expression⟩
  · obtain ⟨used, reads, failed⟩ := complain_reads sane .expectedExpression rfl
    exact ⟨used, reads, .operand (.missed failed)⟩

theorem bindingValue_reads {parser : Parser} (sane : parser.Sane) :
    ∃ used, Reads parser used parser.bindingValue.item.2.errors parser.bindingValue.rest ∧
      Assigned keptFailures used parser.bindingValue.item := by
  unfold bindingValue
  split
  · next equals =>
    have kind : parser.current.kind = .operator := by simp_all [isEqualsSign]
    obtain ⟨after, advanced, first⟩ := sane.advance_reads (by simp [kind])
    simp only [advanced]
    obtain ⟨used, reads, value⟩ := expression_reads (first.sane sane)
    exact ⟨parser.current :: used, first.trans reads, .found equals value⟩
  · obtain ⟨used, reads, failed⟩ := complain_reads sane .expectedEquals rfl
    exact ⟨used, reads, .missed failed⟩

theorem head_skipped_unnamed {parser : Parser} {skipped after : List Token} {next : Token}
    (remaining : parser.remaining = skipped ++ next :: after) (unnamed : parser.current.kind ≠ .name) :
    ∀ token ∈ skipped.head?, token.kind ≠ .name := by
  intro token first
  obtain ⟨more, rfl⟩ := List.head?_eq_some_iff.mp first
  have current : parser.current = token := by
    cases ahead : parser.ahead <;> simp_all [Parser.current, Parser.remaining]
  rwa [← current]

theorem binding_reads {parser : Parser} (sane : parser.Sane) {form : BindingForm}
    (keyword : bindingForm? parser.current.kind = some form) :
    ∃ used, Reads parser used (parser.binding form).item.errors (parser.binding form).rest ∧
      Simple keptFailures used (parser.binding form).item := by
  obtain ⟨inside, advanced, first⟩ := sane.advance_reads (by
    intro last
    simp [last, bindingForm?] at keyword)
  simp only [binding, advanced]
  split
  · next here =>
    have name : inside.current.kind = .name := by simpa [isAt] using here
    obtain ⟨after, advanced, second⟩ := (first.sane sane).advance_reads (by simp [name])
    simp only [advanced]
    have named := first.trans second
    obtain ⟨used, third, value⟩ := bindingValue_reads (named.sane sane)
    have valued := named.trans third
    obtain ⟨last, fourth, terminator⟩ := terminator_reads (valued.sane sane)
    exact ⟨parser.current :: inside.current :: (used ++ last), by simpa using valued.trans fourth,
      .binding keyword name value terminator⟩
  · next other =>
    have unnamed : inside.current.kind ≠ .name := by simpa [isAt] using other
    obtain ⟨skipped, range, item, reads⟩ := fail_reads (first.sane sane)
      Complaint.expectedName.message [parser.current] [] fun skipped next beyond remaining inner stop => by
        have skips := skips_of_remaining first.read remaining inner stop
        rw [first.tokens] at skips ⊢
        exact .nameless keyword (head_skipped_unnamed remaining unnamed) skips
    exact ⟨parser.current :: skipped, first.trans reads, .nameless ⟨range, item⟩⟩

theorem expressionStatement_reads {parser : Parser} (sane : parser.Sane) :
    ∃ used, Reads parser used parser.expressionStatement.item.errors
        parser.expressionStatement.rest ∧
      Simple keptFailures used parser.expressionStatement.item := by
  obtain ⟨used, first, value⟩ := expression_reads sane
  obtain ⟨last, second, terminator⟩ := terminator_reads (first.sane sane)
  exact ⟨used ++ last, by simpa [expressionStatement] using first.trans second,
    .expression value terminator⟩

theorem simpleStatement_reads {parser : Parser} (sane : parser.Sane)
    (more : parser.current.kind ≠ .endOfFile) (inline : parser.current.kind ≠ .endOfLine)
    (single : blockForm? parser.current.kind = none) :
    ∃ used, Reads parser used parser.simpleStatement.item.errors parser.simpleStatement.rest ∧
      Simple keptFailures used parser.simpleStatement.item := by
  unfold simpleStatement
  split
  · next kind => exact binding_reads sane (by rw [kind]; rfl)
  · next kind => exact binding_reads sane (by rw [kind]; rfl)
  · next kind =>
    obtain ⟨used, reads, failed⟩ := misplaced_reads sane more fun _ _ => .unexpectedEnd kind
    exact ⟨used, reads, .unexpectedEnd failed⟩
  · exact expressionStatement_reads sane
  · exact expressionStatement_reads sane
  · next notLet notSet notEnd _ _ =>
    have unreadable : parser.current.kind.resumes = false := by
      cases kind : parser.current.kind <;> simp_all [TokenKind.resumes, blockForm?]
    obtain ⟨used, reads, failed⟩ := misplaced_reads sane more fun _ _ => .unreadable unreadable
    exact ⟨used, reads, .unreadable failed⟩

theorem endMarker_reads {parser : Parser} (sane : parser.Sane)
    (keyword : parser.current.kind = .endWord) :
    ∃ used, Reads parser used parser.endMarker.item.errors parser.endMarker.rest ∧
      BlockEnd keptFailures used parser.endMarker.item ∧
      (used.length = 1 → parser.endMarker.rest.current.kind ≠ .endOfLine) := by
  obtain ⟨inside, advanced, first⟩ := sane.advance_reads (by simp [keyword])
  simp only [endMarker, advanced]
  split
  · next here =>
    have eol : inside.current.kind = .endOfLine := by simpa [isAt] using here
    obtain ⟨after, advanced, second⟩ := (first.sane sane).advance_reads (by simp [eol])
    simp only [advanced]
    exact ⟨[parser.current, inside.current], first.trans second, .full keyword eol, by simp⟩
  · next other =>
    exact ⟨[parser.current], first, .bare keyword, fun _ => by simpa [isAt] using other⟩

theorem splitBlock_append (opened : Nat) (tokens : List Token) :
    (splitBlock opened tokens).1 ++ (splitBlock opened tokens).2 = tokens := by
  induction tokens generalizing opened with
  | nil => rfl
  | cons token rest ih =>
    unfold splitBlock
    split
    · simp [ih]
    split
    · split
      · split
        · simp only [List.cons_append, List.take_append_drop]
        · rfl
      · simp [ih]
    · simp [ih]

theorem skipBlock_reads {parser : Parser} (sane : parser.Sane)
    (opens : parser.current.kind.opensBlock) :
    ∃ used, Reads parser used parser.skipBlock.item.errors parser.skipBlock.rest ∧
      keptFailures .nestedTooDeeply used parser.skipBlock.item := by
  obtain ⟨inside, advanced, first⟩ := sane.advance_reads (by
    intro last
    simp [last, TokenKind.opensBlock] at opens)
  simp only [skipBlock, advanced]
  have split : Reads inside (splitBlock 0 inside.ahead).1 [] { inside with
      read := (splitBlock 0 inside.ahead).1.reverse ++ inside.read
      ahead := (splitBlock 0 inside.ahead).2 } :=
    ⟨(splitBlock_append 0 inside.ahead).symm, rfl, rfl, rfl, rfl, rfl, by simp⟩
  have whole : parser.tokens =
      parser.read.reverse ++ parser.current :: (inside.ahead ++ inside.eof :: inside.beyond) := by
    simp [Parser.tokens, remaining, first.ahead, first.eof, first.beyond]
  have lost := Lost.tooDeep opens whole (first.sane sane).inner (first.sane sane).last
  refine ⟨parser.current :: (splitBlock 0 inside.ahead).1, ?_, _, rfl⟩
  have skipped := first.trans split
  rw [← skipped.tokens] at lost
  simpa using skipped.trans (report_reads lost)

theorem header_reads {parser : Parser} (sane : parser.Sane) (form : BlockForm)
    (more : parser.current.kind ≠ .endOfFile) :
    ∃ inCondition inHeader condition headerEnd,
      (parser.header form).item = ⟨form, parser.current, condition, headerEnd, []⟩ ∧
      Reads parser (parser.current :: (inCondition ++ inHeader))
        (condition.errors ++ headerEnd.errors) (parser.header form).rest ∧
      Expression keptFailures inCondition condition ∧
      Terminator keptFailures inHeader headerEnd := by
  obtain ⟨inside, advanced, first⟩ := sane.advance_reads more
  simp only [header, advanced]
  obtain ⟨inCondition, second, condition⟩ := expression_reads (first.sane sane)
  have conditioned := first.trans second
  obtain ⟨inHeader, third, headerEnd⟩ := terminator_reads (conditioned.sane sane)
  exact ⟨inCondition, inHeader, _, _, rfl, conditioned.trans third, condition, headerEnd⟩

end Parser

end LineScript
