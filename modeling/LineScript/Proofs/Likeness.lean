import LineScript.Proofs.Driving

namespace LineScript

/-- Two parsers that have the same to read. What they have read before and what they have reported may
differ. -/
structure Parser.Alike (first second : Parser) : Prop where
  ahead : first.ahead = second.ahead
  eof : first.eof = second.eof
  depth : first.depth = second.depth

/-- The same was read, and there is the same left to read. -/
structure Taken.Alike {α : Type} (first second : Taken α) : Prop where
  item : first.item = second.item
  rest : first.rest.Alike second.rest

theorem Taken.Alike.answer {first second : Taken Node} (alike : first.Alike second) :
    first.answer.Alike second.answer :=
  ⟨congrArg (Except.ok ∘ some) alike.item, alike.rest⟩

namespace Parser.Alike

variable {first second : Parser} (alike : first.Alike second)
include alike

theorem current : first.current = second.current := by
  rw [Parser.current, alike.ahead, alike.eof, Parser.current]

theorem isAt (kind : TokenKind) : first.isAt kind = second.isAt kind := by
  rw [Parser.isAt, alike.current, Parser.isAt]

/-- Going on in the same way leaves the same to read. -/
theorem passes {free : TokenKind → Prop} {left right : Parser} (one : Passes free first left)
    (two : Passes free second right) (ahead : left.ahead = right.ahead) : left.Alike right where
  ahead := ahead
  eof := by rw [one.eof, two.eof, alike.eof]
  depth := by rw [one.depth, two.depth, alike.depth]

theorem advance : first.advance.Alike second.advance := by
  have same : first.advance.item = second.advance.item ∧
      first.advance.rest.ahead = second.advance.rest.ahead := by
    unfold Parser.advance
    rw [alike.ahead, alike.eof]
    cases second.ahead with
    | nil => exact ⟨rfl, alike.ahead⟩
    | cons token rest => exact ⟨rfl, rfl⟩
  exact ⟨same.1, alike.passes first.advance_advances second.advance_advances same.2⟩

theorem fail (message : String) (lead taken : List Token) :
    (first.fail message lead taken).Alike (second.fail message lead taken) := by
  have passed : (first.takeWhile (!·.kind.resumes)).item = (second.takeWhile (!·.kind.resumes)).item := by
    simp only [Parser.takeWhile, alike.ahead]
  have next : (first.takeWhile (!·.kind.resumes)).rest.current =
      (second.takeWhile (!·.kind.resumes)).rest.current := by
    simp only [Parser.takeWhile, Parser.current, alike.ahead, alike.eof]
  refine ⟨by simp only [Parser.fail, passed, next],
    alike.passes (first.fail_glides message lead taken) (second.fail_glides message lead taken) ?_⟩
  simp only [Parser.fail, report_ahead, Parser.takeWhile, alike.ahead]

theorem complain (complaint : Complaint) :
    (first.complain complaint).Alike (second.complain complaint) :=
  alike.fail _ _ _

theorem misplaced (complaint : Complaint) :
    (first.misplaced complaint).Alike (second.misplaced complaint) := by
  have token := alike.advance
  unfold Parser.misplaced
  dsimp only
  rw [token.item]
  exact token.rest.fail _ _ _

theorem expect (kind : TokenKind) (complaint : Complaint) :
    (first.expect kind complaint).Alike (second.expect kind complaint) := by
  unfold Parser.expect
  rw [alike.isAt]
  split
  · exact ⟨congrArg Node.leaf alike.advance.item, alike.advance.rest⟩
  · exact alike.complain complaint

theorem terminator : first.terminator.Alike second.terminator := alike.expect _ _

theorem atomic? : first.atomic?.Alike second.atomic? := by
  unfold Parser.atomic?
  rw [alike.current]
  split
  · exact ⟨congrArg (some ∘ Node.atomic) alike.advance.item, alike.advance.rest⟩
  · exact ⟨rfl, alike⟩

theorem operand : first.operand.Alike second.operand := by
  unfold Parser.operand
  rw [alike.current]
  split
  · exact ⟨congrArg Node.atomic alike.advance.item, alike.advance.rest⟩
  · exact alike.complain _

theorem expressionTail (left : Node) :
    (first.expressionTail left).Alike (second.expressionTail left) := by
  have token := alike.advance
  unfold Parser.expressionTail
  dsimp only
  rw [alike.isAt, alike.isAt]
  split
  · have right := token.rest.operand
    exact ⟨by rw [token.item, right.item], right.rest⟩
  split
  · have argument := token.rest.atomic?
    have closing := argument.rest.expect .rightParen .expectedRightParen
    exact ⟨by rw [token.item, argument.item, closing.item], closing.rest⟩
  · exact ⟨rfl, alike⟩

theorem expression : first.expression.Alike second.expression := by
  unfold Parser.expression
  dsimp only
  rw [alike.current]
  split
  · have left := alike.operand
    rw [left.item]
    exact left.rest.expressionTail _
  · exact alike.complain _

theorem expressionStatement : first.expressionStatement.Alike second.expressionStatement := by
  have value := alike.expression
  have line := value.rest.terminator
  exact ⟨by simp only [Parser.expressionStatement, value.item, line.item], line.rest⟩

theorem bindingValue : first.bindingValue.Alike second.bindingValue := by
  unfold Parser.bindingValue
  dsimp only
  rw [alike.current]
  split
  · have value := alike.advance.rest.expression
    exact ⟨by rw [alike.advance.item, value.item], value.rest⟩
  · have value := alike.complain .expectedEquals
    exact ⟨by rw [value.item], value.rest⟩

theorem binding (form : BindingForm) : (first.binding form).Alike (second.binding form) := by
  have keyword := alike.advance
  unfold Parser.binding
  dsimp only
  rw [keyword.rest.isAt, keyword.item]
  split
  · have name := keyword.rest.advance
    have value := name.rest.bindingValue
    have line := value.rest.terminator
    exact ⟨by rw [name.item, value.item, line.item], line.rest⟩
  · exact keyword.rest.fail _ _ _

theorem endMarker : first.endMarker.Alike second.endMarker := by
  have keyword := alike.advance
  unfold Parser.endMarker
  dsimp only
  rw [keyword.rest.isAt, keyword.item]
  split
  · have line := keyword.rest.advance
    exact ⟨by rw [line.item], line.rest⟩
  · exact ⟨rfl, keyword.rest⟩

theorem simpleStatement : first.simpleStatement.Alike second.simpleStatement := by
  unfold Parser.simpleStatement
  rw [alike.current]
  split
  · exact alike.binding _
  · exact alike.binding _
  · exact alike.misplaced _
  · exact alike.expressionStatement
  · exact alike.expressionStatement
  · exact alike.misplaced _

theorem skipBlock : first.skipBlock.Alike second.skipBlock := by
  have keyword := alike.advance
  refine ⟨by simp only [Parser.skipBlock, keyword.item, keyword.rest.ahead],
    alike.passes first.skipBlock_advances second.skipBlock_advances ?_⟩
  simp only [Parser.skipBlock, report_ahead, keyword.rest.ahead]

theorem header (form : BlockForm) : (first.header form).Alike (second.header form) := by
  have keyword := alike.advance
  have condition := keyword.rest.expression
  have line := condition.rest.terminator
  exact ⟨by simp only [Parser.header, keyword.item, condition.item, line.item], line.rest⟩

end Parser.Alike

namespace Draft

/-- A draft with more statements done before it. -/
def behind (front : List Node) (draft : Draft) : Draft :=
  { draft with done := front ++ draft.done }

theorem behind_add (front : List Node) (draft : Draft) (node : Node) :
    (draft.behind front).add node = (draft.add node).behind front := by
  obtain ⟨opened, done⟩ := draft
  cases opened with
  | nil => simp [behind, add]
  | cons block outer => rfl

theorem behind_close (front : List Node) (draft : Draft) (ending : Node) :
    (draft.behind front).close ending = (draft.close ending).behind front := by
  obtain ⟨opened, done⟩ := draft
  cases opened with
  | nil => rfl
  | cons block outer => exact behind_add front ⟨outer, done⟩ (block.close ending)

end Draft

namespace Progress

/-- The first goes on as the second does, with more statements done before. -/
structure Alike (front : List Node) (first second : Progress) : Prop where
  draft : first.draft = second.draft.behind front
  parser : first.parser.Alike second.parser

namespace Alike

variable {front : List Node} {first second : Progress} (alike : Alike front first second)
include alike

theorem opened : first.draft.opened = second.draft.opened := by
  rw [alike.draft]
  rfl

theorem isFull : first.isFull = second.isFull := by
  rw [Progress.isFull, alike.opened, alike.parser.depth, Progress.isFull]

theorem add {read : Parser → Taken Node}
    (same : (read first.parser).Alike (read second.parser)) :
    Alike front (first.add read) (second.add read) where
  draft := by simp only [Progress.add, alike.draft, same.item, Draft.behind_add]
  parser := same.rest

theorem enter (form : BlockForm) : Alike front (first.enter form) (second.enter form) := by
  unfold Progress.enter
  rw [alike.isFull]
  split
  · exact alike.add alike.parser.skipBlock
  · have header := alike.parser.header form
    refine ⟨?_, header.rest⟩
    dsimp only
    rw [alike.draft, header.item]
    rfl

theorem step : Alike front first.step second.step := by
  unfold Progress.step
  rw [alike.parser.current, alike.opened]
  split
  · exact ⟨alike.draft, alike.parser.advance.rest⟩
  · exact alike.enter _
  · exact alike.enter _
  · split
    · exact alike.add alike.parser.simpleStatement
    · have marker := alike.parser.endMarker
      refine ⟨?_, marker.rest⟩
      dsimp only
      rw [alike.draft, marker.item, Draft.behind_close]
  · exact alike.add alike.parser.simpleStatement

theorem run (single : Bool) : Alike front (first.run single) (second.run single) := by
  fun_induction Progress.run single second generalizing first with
  | case1 second ended =>
    rw [Progress.run, dif_pos (alike.parser.ahead.trans ended)]
    exact alike
  | case2 second more done =>
    rw [Progress.run, dif_neg (alike.parser.ahead ▸ more), alike.opened, if_pos done]
    exact alike
  | case3 second more busy shorter ih =>
    rw [Progress.run, dif_neg (alike.parser.ahead ▸ more), alike.opened, if_neg busy]
    exact ih alike.step

theorem closeAll (opened : Nat) :
    Alike front (Progress.closeAll opened first) (Progress.closeAll opened second) := by
  induction opened generalizing first second with
  | zero => exact alike
  | succ opened ih =>
    have ending := alike.parser.complain .expectedEnd
    refine ih ⟨?_, ending.rest⟩
    dsimp only
    rw [alike.draft, ending.item, Draft.behind_close]

theorem finish (single : Bool) : Alike front (first.finish single) (second.finish single) := by
  have reached := alike.run single
  unfold Progress.finish
  dsimp only
  rw [reached.opened]
  exact reached.closeAll _

end Alike

theorem Alike.of_parser {first second : Parser} (alike : first.Alike second) (draft : Draft) :
    Alike [] ⟨draft, first⟩ ⟨draft, second⟩ :=
  ⟨rfl, alike⟩

end Progress

namespace Parser.Alike

variable {first second : Parser} (alike : first.Alike second)
include alike

theorem block (form : BlockForm) : (first.block form).Alike (second.block form) := by
  have header := alike.header form
  have reached := (Progress.Alike.of_parser header.rest (.enter .empty (second.header form).item)).finish true
  unfold Parser.block
  dsimp only
  rw [header.item]
  exact ⟨by rw [reached.draft]; rfl, reached.parser⟩

theorem statement : first.statement.Alike second.statement := by
  have nested (form : BlockForm) :
      Taken.Alike (if maxNesting ≤ first.depth then first.skipBlock else first.block form)
        (if maxNesting ≤ second.depth then second.skipBlock else second.block form) := by
    rw [alike.depth]
    split
    · exact alike.skipBlock
    · exact alike.block form
  unfold Parser.statement
  dsimp only
  rw [alike.current]
  split
  · exact nested _
  · exact nested _
  · exact alike.simpleStatement

theorem program : first.program.Alike second.program := by
  have reached := (Progress.Alike.of_parser alike .empty).finish false
  refine ⟨?_, reached.parser⟩
  simp only [Parser.program, reached.parser.current, reached.draft]
  rfl

theorem read (tokens : first.tokens = second.tokens) (beyond : first.beyond = second.beyond) :
    first.read = second.read := by
  rw [Parser.tokens, Parser.tokens, remaining, remaining, alike.ahead, alike.eof, beyond] at tokens
  exact List.reverse_inj.mp (List.append_cancel_right tokens)

/-- Parsers that are alike, and have the same tokens, answer all calls alike. -/
theorem perform (tokens : first.tokens = second.tokens) (beyond : first.beyond = second.beyond)
    (call : ParserCall) : (first.perform call).Alike (second.perform call) := by
  cases call with
  | peek offset =>
    have seen : first.peek offset = second.peek offset := by
      unfold Parser.peek
      rw [cursor, cursor, lastToken, lastToken, tokens, alike.read tokens beyond, alike.eof, beyond]
    exact ⟨congrArg (Except.map (some ∘ Node.leaf)) seen, alike⟩
  | advance => exact ⟨congrArg (Except.ok ∘ some ∘ Node.leaf) alike.advance.item, alike.advance.rest⟩
  | atomic => exact ⟨congrArg Except.ok alike.atomic?.item, alike.atomic?.rest⟩
  | expression => exact alike.expression.answer
  | statement => exact alike.statement.answer
  | program => exact alike.program.answer
  | endMarker => exact alike.endMarker.answer
  | binding form => exact (alike.binding form).answer
  | block form => exact (alike.block form).answer
  | skipBlock => exact alike.skipBlock.answer
  | terminator => exact alike.terminator.answer
  | fail message lead taken => exact (alike.fail message lead taken).answer
  | setDepth depth => exact ⟨rfl, alike.ahead, alike.eof, rfl⟩

end Parser.Alike

end LineScript
