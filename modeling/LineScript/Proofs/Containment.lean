import LineScript.Proofs.Continuation
import LineScript.Proofs.Likeness

namespace LineScript

/-- The statements of a program. -/
def Node.statements : Node → List Node
  | .program statements _ => statements
  | _ => []

namespace Parser

theorem ofTokens_ahead (tokens : List Token) : (ofTokens tokens).ahead = tokens.takeWhile (!isEnd ·) := by
  unfold ofTokens
  dsimp only
  split <;> rfl

theorem ofTokens_eof (tokens : List Token) :
    (ofTokens tokens).eof = (tokens.dropWhile (!isEnd ·)).head?.getD (endAfter tokens) := by
  unfold ofTokens
  dsimp only
  split <;> simp [*]

theorem endAfter_append (first : List Token) {second : List Token} (filled : second ≠ []) :
    endAfter (first ++ second) = endAfter second := by
  rw [endAfter, List.getLast?_append_of_ne_nil first filled, endAfter]

/-- A parser with some tokens ahead and nothing else. -/
def startOf (tokens : List Token) (eof : Token) : Parser := ⟨[], tokens, eof, [], [], 0⟩

/-- Behind tokens without an end of the file, a list is ahead as it is ahead on its own. -/
theorem ofTokens_append_alike {first second : List Token}
    (inner : ∀ token ∈ first, token.kind ≠ .endOfFile) (filled : second ≠ []) :
    (ofTokens (first ++ second)).Alike
      (startOf (first ++ (ofTokens second).ahead) (ofTokens second).eof) where
  ahead := by
    rw [ofTokens_ahead, List.takeWhile_append_of_pos (by simpa [isEnd] using inner), ← ofTokens_ahead]
    rfl
  eof := by
    rw [ofTokens_eof, List.dropWhile_append_of_pos (by simpa [isEnd] using inner),
      endAfter_append first filled, ← ofTokens_eof]
    rfl
  depth := ofTokens_depth _

theorem ofTokens_of_inner {tokens : List Token} (inner : ∀ token ∈ tokens, token.kind ≠ .endOfFile) :
    ofTokens tokens = startOf tokens (endAfter tokens) := by
  have keep : ∀ token ∈ tokens, (!isEnd token) = true := by simpa [isEnd] using inner
  have rest : tokens.dropWhile (!isEnd ·) = [] := List.dropWhile_eq_nil_iff.mpr keep
  simp [ofTokens, startOf, rest, List.takeWhile_eq_self_iff.mpr keep]

theorem statements_startOf_nil (eof : Token) : (startOf [] eof).program.item.statements = [] := by
  have ended : (startOf [] eof).ahead = [] := rfl
  have stopped : Progress.run false ⟨.empty, startOf [] eof⟩ = ⟨.empty, startOf [] eof⟩ := by
    rw [Progress.run, dif_pos ended]
  simp only [program, Progress.finish, stopped]
  rfl

/-- The problems in a finished program are those in its statements. -/
theorem program_errors {parser : Parser} (sane : parser.Sane) :
    parser.program.item.errors = (Progress.finish false ⟨.empty, parser⟩).draft.errors := by
  obtain ⟨_, _, closed⟩ := Progress.finish_grows ⟨.empty, parser⟩ sane
  rw [Draft.errors, Draft.parts, closed]
  simp [program]

end Parser

namespace Progress

variable {progress : Progress}

/-- Where blocks are open at the end of the file, that their end is missing is said. -/
theorem exists_expectedEnd (sane : progress.parser.Sane)
    (busy : (progress.run false).draft.opened ≠ []) :
    ∃ range skipped, .error Complaint.expectedEnd.message range skipped ∈
      (progress.finish false).draft.errors := by
  obtain ⟨block, outer, opened⟩ := List.exists_cons_of_ne_nil busy
  obtain ⟨_, run⟩ := progress.run_grows false sane
  let reached := progress.run false
  let ending := reached.parser.complain .expectedEnd
  have length : reached.draft.opened.length = outer.length + 1 := congrArg List.length opened
  have glides : reached.parser.Glides ending.rest := reached.parser.complain_glides _
  have ended : ending.rest.ahead = [] := by
    obtain ⟨used, ahead, _⟩ := glides.passed
    exact (List.append_eq_nil_iff.mp (ahead.symm.trans progress.run_ahead)).2
  obtain ⟨grows, _⟩ := closeAll_grows ⟨reached.draft.close ending.item, ending.rest⟩
    (glides.sane (run.sane sane)) (opened_close_length length ending.item) ended
  obtain ⟨errors, _, told⟩ := grows.reads
  have whole : progress.finish false =
      closeAll outer.length ⟨reached.draft.close ending.item, ending.rest⟩ := by
    rw [finish, show (progress.run false).draft.opened.length = _ from length]
    rfl
  rw [whole, told, Draft.errors_close opened]
  exact ⟨_, _, List.mem_append_left _ (List.mem_append_right _ (List.mem_singleton_self _))⟩

/-- A text that leaves no block open is read in the same way whatever stands behind it. -/
theorem run_extended_of_closed (more : List Token) (eof : Token) (sane : progress.parser.Sane)
    (whole : progress.parser.ahead = [] ∨ EndsLine progress.parser.ahead)
    (room : progress.parser.depth < maxNesting) (closed : (progress.run false).draft.opened = []) :
    (progress.extended more eof).run false = ((progress.run false).extended more eof).run false := by
  fun_induction run false progress with
  | case1 progress ended => rfl
  | case2 progress filled done => simp at done
  | case3 progress filled busy shorter ih =>
    have ends := whole.resolve_left filled
    have advances := progress.step_advances
    obtain ⟨_, reads, _⟩ := advances.passed
    rw [run_step (List.append_ne_nil_of_left_ne_nil filled more)]
    rcases @step_extended progress more eof ends with same | ⟨full, passed⟩
    · rw [same]
      exact ih (advances.sane sane) (ends.of_append reads) (advances.depth ▸ room) closed
    · -- A block that is left out up to the end stands in others, which are then open as well.
      rw [run, dif_pos passed.ended] at closed
      rw [closed, List.length_nil] at full
      omega

theorem finish_extended_of_closed (more : List Token) (eof : Token) (sane : progress.parser.Sane)
    (whole : progress.parser.ahead = [] ∨ EndsLine progress.parser.ahead)
    (room : progress.parser.depth < maxNesting) (closed : (progress.run false).draft.opened = []) :
    (progress.extended more eof).finish false = ((progress.run false).extended more eof).finish false := by
  unfold finish
  dsimp only
  rw [run_extended_of_closed more eof sane whole room closed]

theorem finish_of_closed (closed : (progress.run false).draft.opened = []) :
    progress.finish false = progress.run false := by
  unfold finish
  dsimp only
  rw [closed]
  rfl

end Progress

/-- Of two lists in one, the lines of the first are settled before the second is looked at. -/
theorem firstOfEachLine_append (earlier later : List Diagnostic) :
    firstOfEachLine (earlier ++ later) = firstOfEachLine earlier ++
      (firstOfEachLine later).filter fun report =>
        !(firstOfEachLine earlier).any (·.line = report.line) := by
  simp only [any_firstOfEachLine]
  induction later using List.reverseRecOn with
  | nil => simp [firstOfEachLine]
  | append_singleton later last ih =>
    rw [← List.append_assoc, firstOfEachLine_concat, firstOfEachLine_concat, List.any_append, ih]
    by_cases before : earlier.any (·.line = last.line) <;>
      by_cases again : later.any (·.line = last.line) <;> simp [before, again]

theorem reports_parseTokens (tokens : List Token) :
    (parseTokens tokens).1.reports =
      (Node.errorsOf (parseTokens tokens).1.statements).filterMap Node.report? := by
  rw [Node.reports, parseTokens, Parser.program, Node.errors_program]
  rfl

section Joined

variable {first : List Token} {eof : Token} (inner : ∀ token ∈ first, token.kind ≠ .endOfFile)
  (last : eof.kind = .endOfFile) (whole : first = [] ∨ EndsLine first)
  (closed : ∀ range skipped,
    .error Complaint.expectedEnd.message range skipped ∉ (parseTokens (first ++ [eof])).1.errors)

include inner last closed in
theorem run_startOf_opened :
    (Progress.run false ⟨.empty, .startOf first eof⟩).draft.opened = [] := by
  have sane : (Parser.startOf first eof).Sane := ⟨inner, last⟩
  by_contra busy
  obtain ⟨range, skipped, member⟩ := Progress.exists_expectedEnd sane busy
  apply closed range skipped
  rw [parseTokens, Parser.ofTokens_append_eof inner last]
  rw [← Parser.program_errors sane] at member
  exact member

include inner last closed whole

/-- What stands behind is read as on its own, into statements that follow those before. -/
theorem program_startOf_append (more : List Token) (other : Token) :
    (Parser.startOf (first ++ more) other).program.item.statements =
      (parseTokens (first ++ [eof])).1.statements ++
        (Parser.startOf more other).program.item.statements := by
  have sane : (Parser.startOf first eof).Sane := ⟨inner, last⟩
  have opened := run_startOf_opened inner last closed
  have outermost : (0 : Int) < maxNesting := by decide
  let start : Progress := ⟨.empty, .startOf first eof⟩
  have short : (parseTokens (first ++ [eof])).1.statements = (start.run false).draft.done := by
    rw [parseTokens, Parser.ofTokens_append_eof inner last]
    exact congrArg (·.draft.done) (Progress.finish_of_closed opened)
  have long : Progress.finish false ⟨.empty, .startOf (first ++ more) other⟩ =
      ((start.run false).extended more other).finish false :=
    Progress.finish_extended_of_closed more other sane whole outermost opened
  have alike : Progress.Alike (start.run false).draft.done ((start.run false).extended more other)
      ⟨.empty, .startOf more other⟩ := by
    refine ⟨?_, ?_, rfl, (start.run_advances false).depth⟩
    · change (start.run false).draft = ⟨[], (start.run false).draft.done ++ []⟩
      rw [List.append_nil, ← opened]
    · change (start.run false).parser.ahead ++ more = more
      rw [start.run_ahead, List.nil_append]
  rw [short]
  refine (congrArg (·.draft.done) long).trans ?_
  rw [(alike.finish false).draft]
  rfl

/-- The statements of two token lists in one. -/
theorem statements_append (second : List Token) :
    (parseTokens (first ++ second)).1.statements =
      (parseTokens (first ++ [eof])).1.statements ++ (parseTokens second).1.statements := by
  have behind := program_startOf_append inner last whole closed
  by_cases filled : second = []
  · subst filled
    have none : (parseTokens []).1.statements = [] := Parser.statements_startOf_nil _
    rw [none, ← Parser.statements_startOf_nil (Parser.endAfter first), ← behind, List.append_nil,
      parseTokens, Parser.ofTokens_of_inner inner]
  · have joined := Parser.ofTokens_append_alike inner filled
    have alone : (Parser.ofTokens second).Alike
        (.startOf (Parser.ofTokens second).ahead (Parser.ofTokens second).eof) :=
      ⟨rfl, rfl, Parser.ofTokens_depth second⟩
    have short : (parseTokens second).1 = _ := alone.program.item
    have long : (parseTokens (first ++ second)).1 = _ := joined.program.item
    rw [short, long]
    exact behind _ _

end Joined

/-- Problems are contained: a text that leaves no block open is read in the same way whatever follows,
and what follows is read as on its own. Only of lines that have a problem in the first text no other
one is reported. -/
theorem parseTokens_reads_closed_text_apart {first : List Token} {eof : Token}
    (inner : ∀ token ∈ first, token.kind ≠ .endOfFile) (last : eof.kind = .endOfFile)
    (whole : first = [] ∨ EndsLine first)
    (closed : ∀ range skipped,
      .error "Expected 'end'." range skipped ∉ (parseTokens (first ++ [eof])).1.errors)
    (second : List Token) :
    (parseTokens (first ++ second)).1.statements =
      (parseTokens (first ++ [eof])).1.statements ++ (parseTokens second).1.statements ∧
    (parseTokens (first ++ second)).2 =
      (parseTokens (first ++ [eof])).2 ++ (parseTokens second).2.filter fun report =>
        !(parseTokens (first ++ [eof])).2.any (·.line = report.line) := by
  have statements := statements_append inner last whole closed second
  refine ⟨statements, ?_⟩
  rw [parseTokens_told, parseTokens_told, parseTokens_told, reports_parseTokens, statements,
    Node.errorsOf_append, List.filterMap_append, ← reports_parseTokens, ← reports_parseTokens]
  exact firstOfEachLine_append _ _

/-- Each text has a problem on its first line, and the second one leaves a block open. -/
theorem parseTokens_reads_closed_text_apart_on_shared_line :
    let first := linesTokens 0 0 (splitLines ")\nend\n".toList)
    let second := tokenize "let\n\nif x"
    (parseTokens (first ++ second)).1.statements.length = 4 ∧
      (parseTokens (first ++ second)).2.map (fun report => (report.message, report.line)) =
        [("Expected a statement.", 0), ("Unexpected 'end'.", 1), ("Expected 'end'.", 2)] := by
  intro first second
  let eof : Token := ⟨4, .endOfFile, "", .point ⟨2, 0⟩, ""⟩
  have early : (parseTokens (first ++ [eof])).1.reports.map (·.message) =
      ["Expected a statement.", "Unexpected 'end'."] := by decide +kernel
  have closed (range : Range) (skipped : List Token) :
      .error "Expected 'end'." range skipped ∉ (parseTokens (first ++ [eof])).1.errors := by
    intro member
    have report : Diagnostic.warning "Expected 'end'." range ∈ (parseTokens (first ++ [eof])).1.reports :=
      List.mem_filterMap.mpr ⟨_, member, rfl⟩
    have message : "Expected 'end'." ∈ (parseTokens (first ++ [eof])).1.reports.map (·.message) :=
      List.mem_map_of_mem report
    rw [early] at message
    exact absurd message (by decide)
  obtain ⟨statements, told⟩ := parseTokens_reads_closed_text_apart linesTokens_inner rfl
    (linesTokens_closed 0 0 _) closed second
  rw [statements, told]
  decide +kernel

end LineScript
