import LineScript.Proofs.Drafting

namespace LineScript

open Grammar

namespace Grammar

theorem keptFailures_errors {complaint : Complaint} {used : List Token} {node : Node}
    (failed : keptFailures complaint used node) : node.errors ≠ [] := by
  obtain ⟨range, item⟩ := failed
  simp [item]

variable {used : List Token} {node : Node}

theorem Expected.strict {kind : TokenKind} {complaint : Complaint}
    (derived : Expected keptFailures kind complaint used node) (clean : node.errors = []) :
    Expected noFailures kind complaint used node := by
  cases derived with
  | found here => exact .found here
  | missed failed => exact absurd clean (keptFailures_errors failed)

theorem Atom.strict (derived : Atom keptFailures used node) (clean : node.errors = []) :
    Atom noFailures used node := by
  cases derived with
  | found atomic => exact .found atomic
  | missed failed => exact absurd clean (keptFailures_errors failed)

theorem Expression.strict (derived : Expression keptFailures used node)
    (clean : node.errors = []) : Expression noFailures used node := by
  cases derived with
  | operand operand => exact .operand (operand.strict clean)
  | binary atomic kind right =>
    simp only [Node.errors_binary, List.append_eq_nil_iff] at clean
    exact .binary atomic kind (right.strict clean.2)
  | call atomic kind closing =>
    simp only [Node.errors_call, List.append_eq_nil_iff] at clean
    exact .call atomic kind (closing.strict clean.2.2)
  | callWith atomic kind argument closing =>
    simp only [Node.errors_call, List.append_eq_nil_iff] at clean
    exact .callWith atomic kind argument (closing.strict clean.2.2)

theorem Assigned.strict {value : Option Token × Node} (derived : Assigned keptFailures used value)
    (clean : value.2.errors = []) : Assigned noFailures used value := by
  cases derived with
  | found equals value => exact .found equals (value.strict clean)
  | missed failed => exact absurd clean (keptFailures_errors failed)

theorem Simple.strict (derived : Simple keptFailures used node) (clean : node.errors = []) :
    Simple noFailures used node := by
  cases derived with
  | binding form name value terminator =>
    simp only [Node.errors_binding, List.append_eq_nil_iff] at clean
    exact .binding form name (value.strict clean.1) (terminator.strict clean.2)
  | expression value terminator =>
    simp only [Node.errors_expression, List.append_eq_nil_iff] at clean
    exact .expression (value.strict clean.1) (terminator.strict clean.2)
  | nameless failed => exact absurd clean (keptFailures_errors failed)
  | unexpectedEnd failed => exact absurd clean (keptFailures_errors failed)
  | unreadable failed => exact absurd clean (keptFailures_errors failed)

theorem BlockEnd.strict (derived : BlockEnd keptFailures used node) (clean : node.errors = []) :
    BlockEnd noFailures used node := by
  cases derived with
  | bare keyword => exact .bare keyword
  | full keyword eol => exact .full keyword eol
  | missed failed => exact absurd clean (keptFailures_errors failed)

/-- What is read without a problem is derived in the grammar proper. -/
theorem Statements.strict {depth : Int} {nodes : List Node}
    (derived : Statements keptFailures depth used nodes) (clean : Node.errorsOf nodes = []) :
    Statements noFailures depth used nodes := by
  induction derived with
  | nil => exact .nil
  | stray kind _ ih => exact .stray kind (ih clean)
  | simple statement _ ih =>
    simp only [Node.errorsOf_cons, List.append_eq_nil_iff] at clean
    exact .simple (statement.strict clean.1) (ih clean.2)
  | block within form condition headerEnd _ ending _ ihBody ihAfter =>
    simp only [Node.errorsOf_cons, Node.errors_block, List.append_eq_nil_iff] at clean
    obtain ⟨⟨inCondition, inHeader, inBody, inEnding⟩, inAfter⟩ := clean
    exact .block within form (condition.strict inCondition) (headerEnd.strict inHeader)
      (ihBody inBody) (ending.strict inEnding) (ihAfter inAfter)
  | tooDeep _ failed =>
    simp only [Node.errorsOf_cons, List.append_eq_nil_iff] at clean
    exact absurd clean.1 (keptFailures_errors failed)

theorem Program.strict (derived : Program keptFailures used node) (clean : node.errors = []) :
    Program noFailures used node := by
  cases derived with
  | mk statements last => exact .mk (statements.strict (by simpa using clean)) last

end Grammar

theorem note_ne_nil_of_isError {node : Node} (problem : node.isError)
    (diagnostics : List Diagnostic) : note diagnostics node ≠ [] := by
  cases node with
  | error message range skipped =>
    simp only [note]
    split
    · next seen =>
      rintro rfl
      simp at seen
    · simp
  | _ => simp [Node.isError] at problem

theorem foldl_note_ne_nil {errors : List Node} (problems : ∀ node ∈ errors, node.isError)
    {diagnostics : List Diagnostic} (told : diagnostics ≠ []) :
    errors.foldl note diagnostics ≠ [] := by
  induction errors generalizing diagnostics with
  | nil => exact told
  | cons node rest ih =>
    rw [List.forall_mem_cons] at problems
    exact ih problems.2 (note_ne_nil_of_isError problems.1 diagnostics)

/-- A problem is passed over in silence only where another one was reported. -/
theorem foldl_note_eq_nil {errors : List Node} (problems : ∀ node ∈ errors, node.isError) :
    errors.foldl note [] = [] ↔ errors = [] := by
  constructor
  · intro silent
    cases errors with
    | nil => rfl
    | cons node rest =>
      rw [List.forall_mem_cons] at problems
      exact absurd silent (foldl_note_ne_nil problems.2 (note_ne_nil_of_isError problems.1 []))
  · rintro rfl
    rfl

namespace Node

theorem isError_of_mem_errors {node problem : Node} (member : problem ∈ node.errors) :
    problem.isError :=
  (List.mem_filter.mp member).2

end Node

namespace Parser

/-- The parser behind the tokens `used`, with `rest` ahead. -/
def past (parser : Parser) (used rest : List Token) : Parser :=
  { parser with read := used.reverse ++ parser.read, ahead := rest }

@[simp] theorem past_nil_ahead (parser : Parser) : parser.past [] parser.ahead = parser := rfl

@[simp] theorem ahead_past (parser : Parser) (before rest : List Token) :
    (parser.past before rest).ahead = rest := rfl

@[simp] theorem depth_past (parser : Parser) (before rest : List Token) :
    (parser.past before rest).depth = parser.depth := rfl

@[simp] theorem current_past (parser : Parser) (before rest : List Token) (token : Token) :
    (parser.past before (token :: rest)).current = token := rfl

@[simp] theorem isAt_past (parser : Parser) (before rest : List Token) (token : Token)
    (kind : TokenKind) :
    (parser.past before (token :: rest)).isAt kind = decide (token.kind = kind) := rfl

@[simp] theorem advance_past (parser : Parser) (before rest : List Token) (token : Token) :
    (parser.past before (token :: rest)).advance =
      ⟨token, parser.past (before ++ [token]) rest⟩ := by
  simp [advance, past]

variable {used : List Token} {node : Node}

theorem expect_past {kind : TokenKind} {complaint : Complaint}
    (derived : Expected noFailures kind complaint used node) (parser : Parser)
    (before rest : List Token) :
    (parser.past before (used ++ rest)).expect kind complaint =
      ⟨node, parser.past (before ++ used) rest⟩ := by
  cases derived with
  | found here => simp [expect, here]
  | missed failed => exact failed.elim

theorem operand_past (derived : Atom noFailures used node) (parser : Parser)
    (before rest : List Token) :
    (parser.past before (used ++ rest)).operand = ⟨node, parser.past (before ++ used) rest⟩ := by
  cases derived with
  | found atomic => simp [operand, atomic]
  | missed failed => exact failed.elim

theorem not_isAtomic_of_kind {token : Token} (kind : token.kind = .rightParen) :
    token.isAtomic = false := by
  simp [Token.isAtomic, TokenKind.isAtomic, kind]

theorem expression_of_atomic {left : Token} (atomic : left.isAtomic) (parser : Parser)
    (before rest : List Token) :
    (parser.past before (left :: rest)).expression =
      (parser.past (before ++ [left]) rest).expressionTail (.atomic left) := by
  simp [expression, operand, atomic]

/-- An expression is read to its end where no operator and no parenthesis follows. -/
theorem expression_past (derived : Expression noFailures used node) (parser : Parser)
    (before rest : List Token) {eol : Token} (kind : eol.kind = .endOfLine) :
    (parser.past before (used ++ eol :: rest)).expression =
      ⟨node, parser.past (before ++ used) (eol :: rest)⟩ := by
  cases derived with
  | operand operand =>
    cases operand with
    | found atomic => simp [expression_of_atomic atomic, expressionTail, kind]
    | missed failed => exact failed.elim
  | binary atomic sign right =>
    simp [expression_of_atomic atomic, expressionTail, sign, operand_past right]
  | call atomic sign closing =>
    cases closing with
    | found closing =>
      simp [expression_of_atomic atomic, expressionTail, sign, atomic?,
        not_isAtomic_of_kind closing, expect, closing]
    | missed failed => exact failed.elim
  | callWith atomic sign argument closing =>
    simp [expression_of_atomic atomic, expressionTail, sign, atomic?, argument,
      expect_past closing]

theorem bindingValue_past {value : Option Token × Node} (derived : Assigned noFailures used value)
    (parser : Parser) (before rest : List Token) {eol : Token} (kind : eol.kind = .endOfLine) :
    (parser.past before (used ++ eol :: rest)).bindingValue =
      ⟨value, parser.past (before ++ used) (eol :: rest)⟩ := by
  cases derived with
  | found equals value => simp [bindingValue, equals, expression_past value _ _ _ kind]
  | missed failed => exact failed.elim

/-- In the grammar proper an expression is always followed by the end of its line. -/
theorem exists_eol (derived : Terminator noFailures used node) :
    ∃ eol, used = [eol] ∧ node = .leaf eol ∧ eol.kind = .endOfLine := by
  cases derived with
  | found kind => exact ⟨_, rfl, rfl, kind⟩
  | missed failed => exact failed.elim

theorem binding_past {keyword name : Token} {value : Option Token × Node} {eol : Token}
    (named : name.kind = .name) (derived : Assigned noFailures used value)
    (kind : eol.kind = .endOfLine) (parser : Parser) (form : BindingForm)
    (before rest : List Token) :
    (parser.past before (keyword :: name :: (used ++ eol :: rest))).binding form =
      ⟨.binding form keyword name value.1 value.2 (.leaf eol),
        parser.past (before ++ keyword :: name :: (used ++ [eol])) rest⟩ := by
  simp [binding, named, bindingValue_past derived _ _ _ kind, terminator, expect, kind]

theorem simpleStatement_of_bindingForm {keyword : Token} {form : BindingForm}
    (opens : bindingForm? keyword.kind = some form) (parser : Parser) (before rest : List Token) :
    (parser.past before (keyword :: rest)).simpleStatement =
      (parser.past before (keyword :: rest)).binding form := by
  cases kind : keyword.kind <;>
    simp only [kind, bindingForm?, Option.some.injEq, reduceCtorEq] at opens
  · simp [simpleStatement, kind, opens]
  · simp [simpleStatement, kind, opens]

theorem simpleStatement_of_atomic {first : Token} (atomic : first.isAtomic) (parser : Parser)
    (before rest : List Token) :
    (parser.past before (first :: rest)).simpleStatement =
      (parser.past before (first :: rest)).expressionStatement := by
  cases kind : first.kind <;> simp [Token.isAtomic, TokenKind.isAtomic, kind] at atomic
  · simp [simpleStatement, kind]
  · simp [simpleStatement, kind]

theorem exists_atomic (derived : Expression noFailures used node) :
    ∃ first more, used = first :: more ∧ first.isAtomic := by
  cases derived with
  | operand operand =>
    cases operand with
    | found atomic => exact ⟨_, _, rfl, atomic⟩
    | missed failed => exact failed.elim
  | binary atomic => exact ⟨_, _, rfl, atomic⟩
  | call atomic => exact ⟨_, _, rfl, atomic⟩
  | callWith atomic => exact ⟨_, _, rfl, atomic⟩

theorem simpleStatement_past (derived : Simple noFailures used node) (parser : Parser)
    (before rest : List Token) :
    (parser.past before (used ++ rest)).simpleStatement =
      ⟨node, parser.past (before ++ used) rest⟩ := by
  cases derived with
  | binding opens named value closed =>
    obtain ⟨eol, rfl, rfl, kind⟩ := exists_eol closed
    simp only [List.cons_append, List.append_assoc, List.nil_append]
    rw [simpleStatement_of_bindingForm opens, binding_past named value kind]
  | expression value closed =>
    obtain ⟨eol, rfl, rfl, kind⟩ := exists_eol closed
    have whole := expression_past value parser before rest kind
    obtain ⟨first, more, rfl, atomic⟩ := exists_atomic value
    simp only [List.cons_append, List.append_assoc, List.nil_append] at whole ⊢
    rw [simpleStatement_of_atomic atomic]
    simp [expressionStatement, whole, terminator, expect, kind]
  | nameless failed => exact failed.elim
  | unexpectedEnd failed => exact failed.elim
  | unreadable failed => exact failed.elim

theorem header_past {keyword eol : Token} {condition : Node} {inCondition : List Token}
    (test : Expression noFailures inCondition condition) (kind : eol.kind = .endOfLine)
    (parser : Parser) (form : BlockForm) (before rest : List Token) :
    (parser.past before (keyword :: (inCondition ++ eol :: rest))).header form =
      ⟨⟨form, keyword, condition, .leaf eol, []⟩,
        parser.past (before ++ keyword :: (inCondition ++ [eol])) rest⟩ := by
  simp [header, expression_past test _ _ _ kind, terminator, expect, kind]

end Parser

namespace Progress

theorem run_step {progress : Progress} (more : progress.parser.ahead ≠ []) :
    progress.run false = progress.step.run false := by
  rw [run]
  simp [more]

variable {used : List Token} {node : Node}

theorem step_stray {eol : Token} (kind : eol.kind = .endOfLine) (draft : Draft) (parser : Parser)
    (before rest : List Token) :
    step ⟨draft, parser.past before (eol :: rest)⟩ = ⟨draft, parser.past (before ++ [eol]) rest⟩ := by
  simp [step, kind]

/-- The first token tells a statement that is no block from everything else. -/
theorem simple_starts (derived : Simple noFailures used node) :
    ∃ first more, used = first :: more ∧ first.kind ≠ .endOfLine ∧ first.kind ≠ .ifWord ∧
      first.kind ≠ .whileWord ∧ first.kind ≠ .endWord := by
  cases derived with
  | @binding _ keyword _ _ _ _ _ opens =>
    refine ⟨_, _, rfl, ?_⟩
    cases kind : keyword.kind <;> simp [kind, bindingForm?] at opens ⊢
  | expression value closed =>
    obtain ⟨first, more, rfl, atomic⟩ := Parser.exists_atomic value
    refine ⟨_, _, rfl, ?_⟩
    cases kind : first.kind <;> simp [Token.isAtomic, TokenKind.isAtomic, kind] at atomic ⊢
  | nameless failed => exact failed.elim
  | unexpectedEnd failed => exact failed.elim
  | unreadable failed => exact failed.elim

theorem step_simple (derived : Simple noFailures used node) (draft : Draft) (parser : Parser)
    (before rest : List Token) :
    step ⟨draft, parser.past before (used ++ rest)⟩ =
      ⟨draft.add node, parser.past (before ++ used) rest⟩ := by
  have statement := Parser.simpleStatement_past derived parser before rest
  obtain ⟨first, more, rfl, notLine, notIf, notWhile, notEnd⟩ := simple_starts derived
  simp only [List.cons_append] at statement ⊢
  unfold step
  split <;> simp_all [add]

theorem step_enter {keyword eol : Token} {condition : Node} {inCondition : List Token}
    {form : BlockForm} (opens : blockForm? keyword.kind = some form)
    (test : Expression noFailures inCondition condition) (kind : eol.kind = .endOfLine)
    (draft : Draft) (parser : Parser) (room : parser.depth + draft.opened.length < maxNesting)
    (before rest : List Token) :
    step ⟨draft, parser.past before (keyword :: (inCondition ++ eol :: rest))⟩ =
      ⟨draft.enter ⟨form, keyword, condition, .leaf eol, []⟩,
        parser.past (before ++ keyword :: (inCondition ++ [eol])) rest⟩ := by
  have entering : enter ⟨draft, parser.past before (keyword :: (inCondition ++ eol :: rest))⟩ form =
      ⟨draft.enter ⟨form, keyword, condition, .leaf eol, []⟩,
        parser.past (before ++ keyword :: (inCondition ++ [eol])) rest⟩ := by
    have free : ¬ maxNesting ≤ parser.depth + draft.opened.length := by omega
    simp [enter, isFull, free, Parser.header_past test kind]
  cases kind : keyword.kind <;>
    simp only [kind, blockForm?, Option.some.injEq, reduceCtorEq] at opens
  · rw [← opens] at entering ⊢
    simp [step, kind, entering]
  · rw [← opens] at entering ⊢
    simp [step, kind, entering]

theorem step_leave {draft : Draft} (inside : draft.opened ≠ []) {keyword : Token}
    (kind : keyword.kind = .endWord) (parser : Parser) (before rest : List Token) :
    step ⟨draft, parser.past before (keyword :: rest)⟩ =
      ⟨draft.close (parser.past before (keyword :: rest)).endMarker.item,
        (parser.past before (keyword :: rest)).endMarker.rest⟩ := by
  simp [step, kind, inside]

/-- Behind the end of a block it makes no difference who passes the end of the line: the block
itself, or the step after it. -/
theorem run_leave {draft : Draft} (inside : draft.opened ≠ []) {ending : Node}
    (derived : BlockEnd noFailures used ending) {parser : Parser}
    (last : parser.eof.kind = .endOfFile) (before rest : List Token) :
    ∃ marker, run false ⟨draft, parser.past before (used ++ rest)⟩ =
      run false ⟨draft.close marker, parser.past (before ++ used) rest⟩ := by
  cases derived with
  | @bare keyword kind =>
    simp only [List.singleton_append]
    rw [run_step (by simp), step_leave inside kind]
    by_cases more : ∃ eol rest', rest = eol :: rest' ∧ eol.kind = .endOfLine
    · obtain ⟨eol, rest', rfl, eolKind⟩ := more
      refine ⟨.endMarker keyword (some eol), ?_⟩
      rw [@run_step ⟨_, parser.past (before ++ [keyword]) _⟩ (by simp), step_stray eolKind]
      simp [Parser.endMarker, eolKind]
    · refine ⟨.endMarker keyword none, ?_⟩
      have other : (parser.past (before ++ [keyword]) rest).isAt .endOfLine = false := by
        cases rest with
        | nil => simp [Parser.isAt, Parser.current, Parser.past, last]
        | cons token rest' => simpa using fun kind => more ⟨token, rest', rfl, kind⟩
      simp [Parser.endMarker, other]
  | @full keyword eol kind eolKind =>
    refine ⟨.endMarker keyword (some eol), ?_⟩
    simp only [List.cons_append, List.nil_append]
    rw [run_step (by simp), step_leave inside kind]
    simp [Parser.endMarker, eolKind]
  | missed failed => exact failed.elim

/-- Statements of the grammar proper are passed without a problem, and no block that they open
stays open. -/
theorem run_statements {depth : Int} {nodes : List Node}
    (derived : Statements noFailures depth used nodes) (parser : Parser)
    (last : parser.eof.kind = .endOfFile) (draft : Draft)
    (inside : parser.depth + draft.opened.length = depth) (before rest : List Token) :
    ∃ grown, run false ⟨draft, parser.past before (used ++ rest)⟩ =
        run false ⟨grown, parser.past (before ++ used) rest⟩ ∧
      grown.opened.length = draft.opened.length := by
  induction derived generalizing draft before rest with
  | nil => exact ⟨draft, by simp, rfl⟩
  | stray kind _ ih =>
    simp only [List.cons_append]
    rw [run_step (by simp), step_stray kind]
    obtain ⟨grown, run, opened⟩ := ih draft inside (before ++ [_]) rest
    exact ⟨grown, by simpa using run, opened⟩
  | @simple _ _ node _ _ statement _ ih =>
    obtain ⟨first, more, cons, _⟩ := simple_starts statement
    rw [List.append_assoc, run_step (by simp [cons]), step_simple statement]
    have length := draft.opened_add_length node
    obtain ⟨grown, run, opened⟩ := ih (draft.add node) (by rwa [length]) (before ++ _) rest
    exact ⟨grown, by simpa using run, opened.trans length⟩
  | @block _ form keyword condition _ _ _ _ _ inCondition _ inBody inEnding within opens test closed
      _ ending _ ihBody ihAfter =>
    obtain ⟨eol, rfl, rfl, kind⟩ := Parser.exists_eol closed
    simp only [List.cons_append, List.append_assoc, List.nil_append]
    rw [run_step (by simp), step_enter opens test kind draft parser (by rwa [inside])]
    obtain ⟨filled, body, full⟩ := ihBody (draft.enter ⟨form, keyword, condition, .leaf eol, []⟩)
      (by simp [Draft.enter]; omega) (before ++ keyword :: (inCondition ++ [eol]))
      (inEnding ++ (_ ++ rest))
    have nested : filled.opened.length = draft.opened.length + 1 := by simpa [Draft.enter] using full
    have some : filled.opened ≠ [] := by
      intro empty
      simp [empty] at nested
    obtain ⟨marker, leave⟩ := run_leave some ending last
      (before ++ keyword :: (inCondition ++ [eol]) ++ inBody) (_ ++ rest)
    have length := opened_close_length nested marker
    obtain ⟨grown, after, opened⟩ := ihAfter (filled.close marker) (by rwa [length])
      (before ++ keyword :: (inCondition ++ [eol]) ++ inBody ++ inEnding) rest
    refine ⟨grown, ?_, opened.trans length⟩
    rw [body, leave, after]
    simp
  | tooDeep _ failed => exact failed.elim

end Progress

namespace Parser

theorem ofTokens_append_eof {tokens : List Token} {eof : Token}
    (inner : ∀ token ∈ tokens, token.kind ≠ .endOfFile) (last : eof.kind = .endOfFile) :
    ofTokens (tokens ++ [eof]) = ⟨[], tokens, eof, [], [], 0⟩ := by
  have keep : ∀ token ∈ tokens, (!isEnd token) = true := by simpa [isEnd] using inner
  have stop : isEnd eof = true := by simp [isEnd, last]
  simp [ofTokens, List.takeWhile_append_of_pos keep, List.dropWhile_append_of_pos keep, stop]

theorem sane_of_append_eof {tokens : List Token} {eof : Token}
    (inner : ∀ token ∈ tokens, token.kind ≠ .endOfFile) (last : eof.kind = .endOfFile) :
    (ofTokens (tokens ++ [eof])).Sane := by
  rw [ofTokens_append_eof inner last]
  exact ⟨inner, last⟩

/-- Problems are reported unless there are none in the tree. -/
theorem program_diagnostics_eq_nil {parser : Parser} (sane : parser.Sane)
    (outermost : parser.depth = 0) (fresh : parser.diagnostics = []) :
    parser.program.rest.diagnostics = [] ↔ parser.program.item.errors = [] := by
  rw [(program_reads sane outermost).2.told, fresh]
  exact foldl_note_eq_nil fun _ => Node.isError_of_mem_errors

/-- A program of the grammar proper is read without a problem. -/
theorem program_diagnostics_of_derivation {tokens : List Token} {eof : Token}
    {tree : Node} (derived : Program noFailures (tokens ++ [eof]) tree) :
    (program ⟨[], tokens, eof, [], [], 0⟩).rest.diagnostics = [] := by
  obtain ⟨statements, derived, _, last⟩ := derived.statements
  have start : (⟨[], tokens, eof, [], [], 0⟩ : Parser) =
      past ⟨[], [], eof, [], [], 0⟩ [] (tokens ++ []) := by simp [past]
  obtain ⟨grown, run, closed⟩ :=
    Progress.run_statements derived (Parser.mk [] [] eof [] [] 0) last .empty rfl [] []
  rw [← start, List.nil_append] at run
  have ended : Progress.run false ⟨grown, past ⟨[], [], eof, [], [], 0⟩ tokens []⟩ =
      ⟨grown, past ⟨[], [], eof, [], [], 0⟩ tokens []⟩ := by
    rw [Progress.run]
    simp
  have none : grown.opened.length = 0 := closed
  simp only [program, Progress.finish, run, ended, none, Progress.closeAll]
  rfl

end Parser

/-- The parser accepts the grammar: a token list is read without a problem exactly if it is a program,
and the tree is then a derivation of it. -/
theorem parseTokens_silent_iff_derivable {tokens : List Token} {eof : Token}
    (inner : ∀ token ∈ tokens, token.kind ≠ .endOfFile) (last : eof.kind = .endOfFile) :
    ((parseTokens (tokens ++ [eof])).2 = [] ↔
        ∃ tree, Program noFailures (tokens ++ [eof]) tree) ∧
      ((parseTokens (tokens ++ [eof])).2 = [] →
        (parseTokens (tokens ++ [eof])).1.errors = [] ∧
        Program noFailures (tokens ++ [eof]) (parseTokens (tokens ++ [eof])).1) := by
  have sane := Parser.sane_of_append_eof inner last
  simp only [parseTokens, Parser.ofTokens_append_eof inner last] at sane ⊢
  have derived := (Parser.program_reads sane rfl).1
  have silent := Parser.program_diagnostics_eq_nil sane rfl rfl
  refine ⟨⟨?_, ?_⟩, ?_⟩
  · intro quiet
    exact ⟨_, derived.strict (silent.mp quiet)⟩
  · rintro ⟨tree, program⟩
    exact Parser.program_diagnostics_of_derivation program
  · intro quiet
    exact ⟨silent.mp quiet, derived.strict (silent.mp quiet)⟩

/-- A loop with an empty line in its body and no end of line behind its end. -/
theorem parseTokens_silent_on_loop :
    let token (kind : TokenKind) (text : String) : Token := ⟨0, kind, text, .point ⟨0, 0⟩, ""⟩
    let loop := [token .whileWord "while", token .name "x", token .operator "<",
      token .integer "3", token .endOfLine "", token .endOfLine "", token .endWord "end"]
    (∀ token ∈ loop, token.kind ≠ .endOfFile) ∧
      (parseTokens (loop ++ [token .endOfFile ""])).2 = [] ∧
      Program noFailures (loop ++ [token .endOfFile ""])
        (parseTokens (loop ++ [token .endOfFile ""])).1 := by
  intro token loop
  have inner : ∀ token ∈ loop, token.kind ≠ .endOfFile := by decide
  have last : (token .endOfFile "").kind = .endOfFile := rfl
  have test : Expression noFailures
      [token .name "x", token .operator "<", token .integer "3"] _ := .binary rfl rfl (.found rfl)
  have header : Terminator noFailures [token .endOfLine ""] _ := .found rfl
  have body : Statements noFailures 1 [token .endOfLine ""] [] := .stray rfl .nil
  have ending : BlockEnd noFailures [token .endWord "end"] _ := .bare rfl
  have derived : Statements noFailures 0 loop _ :=
    .block (show (0 : Int) < maxNesting by decide) rfl test header body ending .nil
  have accepted := parseTokens_silent_iff_derivable inner last
  have silent := accepted.1.mpr ⟨_, .mk derived last⟩
  exact ⟨inner, silent, (accepted.2 silent).2⟩

end LineScript
