import LineScript.Proofs.Grammar

namespace LineScript

/-- Whether a complaint is that something is missing at the reading position. -/
def Complaint.isMissing : Complaint → Bool
  | expectedEquals | expectedExpression | expectedRightParen | expectedEndOfLine | expectedEnd => true
  | expectedStatement | expectedName | unexpectedEnd | nestedTooDeeply => false

/-- The tokens `skipped` stand behind `passed` and reach up to `next`, where reading resumes. -/
structure Skips (all passed skipped : List Token) (next : Token) : Prop where
  place : ∃ before after, all = before ++ (passed ++ (skipped ++ next :: after))
  inner : ∀ token ∈ skipped, token.kind.resumes = false
  stop : next.kind.resumes = true

/-- How tokens of a list are lost, and what the node says that is left in their place. Where no
token offends, the start of the next one is reported. -/
inductive Lost (all : List Token) : Node → Prop
  | missing {complaint : Complaint} {skipped next} : complaint.isMissing → Skips all [] skipped next →
      Lost all (.error complaint.message (Parser.rangeOf skipped next.range.start) skipped)
  | nameless {keyword form skipped next} : bindingForm? keyword.kind = some form →
      (∀ token ∈ skipped.head?, token.kind ≠ .name) → Skips all [keyword] skipped next →
      Lost all (.error Complaint.expectedName.message (Parser.rangeOf skipped next.range.start)
        (keyword :: skipped))
  | unexpectedEnd {token skipped next} : token.kind = .endWord → Skips all [token] skipped next →
      Lost all (.error Complaint.unexpectedEnd.message
        (Parser.rangeOf (token :: skipped) next.range.start) (token :: skipped))
  | unreadable {token skipped next} : token.kind.resumes = false → Skips all [token] skipped next →
      Lost all (.error Complaint.expectedStatement.message
        (Parser.rangeOf (token :: skipped) next.range.start) (token :: skipped))
  | tooDeep {before keyword ahead eof beyond} : keyword.kind.opensBlock →
      all = before ++ keyword :: (ahead ++ eof :: beyond) →
      (∀ token ∈ ahead, token.kind ≠ .endOfFile) → eof.kind = .endOfFile →
      Lost all (.error Complaint.nestedTooDeeply.message
        (Parser.rangeOf (keyword :: (Parser.splitBlock 0 ahead).1) keyword.range.start)
        (keyword :: (Parser.splitBlock 0 ahead).1))

namespace Parser

theorem rangeOf_cons_start (token : Token) (rest : List Token) (position : Position) :
    (rangeOf (token :: rest) position).start = token.range.start := by
  rw [rangeOf, List.getLast?_cons]
  rfl

/-- Skipping starts behind what was read last. -/
theorem skips_of_remaining {parser : Parser} {passed past skipped after : List Token} {next : Token}
    (read : parser.read = passed.reverse ++ past)
    (remaining : parser.remaining = skipped ++ next :: after)
    (inner : ∀ token ∈ skipped, token.kind.resumes = false) (stop : next.kind.resumes = true) :
    Skips parser.tokens passed skipped next :=
  ⟨⟨past.reverse, after, by simp [tokens, read, remaining]⟩, inner, stop⟩

end Parser

end LineScript
