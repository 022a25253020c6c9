import LineScript.Parsing.Block

namespace LineScript

namespace Parser

theorem advance_length_le (parser : Parser) :
    parser.advance.rest.ahead.length ≤ parser.ahead.length := by
  unfold advance
  split <;> simp_all

theorem advance_length_lt {parser : Parser} (more : parser.ahead ≠ []) :
    parser.advance.rest.ahead.length < parser.ahead.length := by
  unfold advance
  split <;> simp_all

@[simp] theorem report_ahead (parser : Parser) (message : String) (range : Range) :
    (parser.report message range).ahead = parser.ahead := by
  unfold report
  split <;> rfl

theorem fail_length_le (parser : Parser) (message : String) (lead taken : List Token) :
    (parser.fail message lead taken).rest.ahead.length ≤ parser.ahead.length := by
  simpa [fail, takeWhile] using (List.dropWhile_sublist (l := parser.ahead) _).length_le

theorem complain_length_le (parser : Parser) (complaint : Complaint) :
    (parser.complain complaint).rest.ahead.length ≤ parser.ahead.length :=
  parser.fail_length_le ..

theorem misplaced_length_lt {parser : Parser} (complaint : Complaint) (more : parser.ahead ≠ []) :
    (parser.misplaced complaint).rest.ahead.length < parser.ahead.length :=
  Nat.lt_of_le_of_lt (fail_length_le ..) (advance_length_lt more)

theorem expect_length_le (parser : Parser) (kind : TokenKind) (complaint : Complaint) :
    (parser.expect kind complaint).rest.ahead.length ≤ parser.ahead.length := by
  unfold expect
  split
  · exact parser.advance_length_le
  · exact parser.complain_length_le complaint

theorem atomic?_length_le (parser : Parser) :
    parser.atomic?.rest.ahead.length ≤ parser.ahead.length := by
  unfold atomic?
  split
  · exact parser.advance_length_le
  · exact Nat.le_refl _

theorem operand_length_le (parser : Parser) :
    parser.operand.rest.ahead.length ≤ parser.ahead.length := by
  unfold operand
  split
  · exact parser.advance_length_le
  · exact parser.complain_length_le _

theorem expressionTail_length_le (parser : Parser) (left : Node) :
    (parser.expressionTail left).rest.ahead.length ≤ parser.ahead.length := by
  have first := parser.advance_length_le
  unfold expressionTail
  split
  · exact Nat.le_trans (operand_length_le _) first
  split
  · exact Nat.le_trans (expect_length_le ..) (Nat.le_trans (atomic?_length_le _) first)
  · exact Nat.le_refl _

theorem expression_length_le (parser : Parser) :
    parser.expression.rest.ahead.length ≤ parser.ahead.length := by
  unfold expression
  split
  · exact Nat.le_trans (expressionTail_length_le ..) parser.operand_length_le
  · exact parser.complain_length_le _

/-- The end of the file is no operand, so an expression that starts with one takes a token. -/
theorem expression_length_lt {parser : Parser} (more : parser.ahead ≠ [])
    (start : parser.current.isAtomic) :
    parser.expression.rest.ahead.length < parser.ahead.length := by
  unfold expression
  rw [if_pos start]
  refine Nat.lt_of_le_of_lt (expressionTail_length_le ..) ?_
  unfold operand
  rw [if_pos start]
  exact advance_length_lt more

theorem bindingValue_length_le (parser : Parser) :
    parser.bindingValue.rest.ahead.length ≤ parser.ahead.length := by
  unfold bindingValue
  split
  · exact Nat.le_trans (expression_length_le _) parser.advance_length_le
  · exact parser.complain_length_le _

theorem binding_length_lt {parser : Parser} (form : BindingForm) (more : parser.ahead ≠ []) :
    (parser.binding form).rest.ahead.length < parser.ahead.length := by
  refine Nat.lt_of_le_of_lt ?_ (advance_length_lt more)
  unfold binding
  dsimp only
  split
  · exact Nat.le_trans (expect_length_le ..)
      (Nat.le_trans (bindingValue_length_le _) (advance_length_le _))
  · exact fail_length_le ..

theorem endMarker_length_lt {parser : Parser} (more : parser.ahead ≠ []) :
    parser.endMarker.rest.ahead.length < parser.ahead.length := by
  refine Nat.lt_of_le_of_lt ?_ (advance_length_lt more)
  unfold endMarker
  dsimp only
  split
  · exact advance_length_le _
  · exact Nat.le_refl _

theorem simpleStatement_length_lt {parser : Parser} (more : parser.ahead ≠ []) :
    parser.simpleStatement.rest.ahead.length < parser.ahead.length := by
  have statement (start : parser.current.isAtomic) :
      parser.expressionStatement.rest.ahead.length < parser.ahead.length :=
    Nat.lt_of_le_of_lt (expect_length_le ..) (expression_length_lt more start)
  unfold simpleStatement
  split
  · exact binding_length_lt _ more
  · exact binding_length_lt _ more
  · exact misplaced_length_lt _ more
  · next kind => exact statement (by simp [Token.isAtomic, TokenKind.isAtomic, kind])
  · next kind => exact statement (by simp [Token.isAtomic, TokenKind.isAtomic, kind])
  · exact misplaced_length_lt _ more

theorem splitBlock_length_le (opened : Nat) (tokens : List Token) :
    (splitBlock opened tokens).2.length ≤ tokens.length := by
  induction tokens generalizing opened with
  | nil => simp [splitBlock]
  | cons token rest ih =>
    unfold splitBlock
    split
    · exact Nat.le_succ_of_le (ih _)
    split
    · split
      · split
        · simp only [List.length_drop, List.length_cons]
          omega
        · simp
      · exact Nat.le_succ_of_le (ih _)
    · exact Nat.le_succ_of_le (ih _)

theorem skipBlock_length_lt {parser : Parser} (more : parser.ahead ≠ []) :
    parser.skipBlock.rest.ahead.length < parser.ahead.length := by
  refine Nat.lt_of_le_of_lt ?_ (advance_length_lt more)
  simpa [skipBlock] using splitBlock_length_le 0 _

theorem header_length_lt {parser : Parser} (form : BlockForm) (more : parser.ahead ≠ []) :
    (parser.header form).rest.ahead.length < parser.ahead.length :=
  Nat.lt_of_le_of_lt (Nat.le_trans (expect_length_le ..) (expression_length_le _))
    (advance_length_lt more)

end Parser

end LineScript
