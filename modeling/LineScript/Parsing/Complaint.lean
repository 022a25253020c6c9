namespace LineScript

/-- What can be wrong with the shape of a program. -/
inductive Complaint where
  | expectedStatement
  | expectedName
  | expectedEquals
  | expectedExpression
  | expectedRightParen
  | expectedEndOfLine
  | expectedEnd
  | unexpectedEnd
  | nestedTooDeeply
  deriving DecidableEq

def Complaint.message : Complaint → String
  | expectedStatement => "Expected a statement."
  | expectedName => "Expected a name."
  | expectedEquals => "Expected '='."
  | expectedExpression => "Expected an expression."
  | expectedRightParen => "Expected ')'."
  | expectedEndOfLine => "Expected an end of line."
  | expectedEnd => "Expected 'end'."
  | unexpectedEnd => "Unexpected 'end'."
  | nestedTooDeeply => "Blocks are nested too deeply."

end LineScript
