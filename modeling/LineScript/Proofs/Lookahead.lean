import LineScript.Proofs.Naming

namespace LineScript

/-- The last of the tokens is the end of a line. -/
inductive EndsLine : List Token → Prop
  | last {eol} : eol.kind = .endOfLine → EndsLine [eol]
  | cons {token rest} : EndsLine rest → EndsLine (token :: rest)

namespace EndsLine

theorem prepend {rest : List Token} (ends : EndsLine rest) (front : List Token) :
    EndsLine (front ++ rest) := by
  induction front with
  | nil => exact ends
  | cons token front ih => exact .cons ih

variable {tokens : List Token} (ends : EndsLine tokens)
include ends

theorem ne_nil : tokens ≠ [] := by
  cases ends <;> simp

theorem tail {token : Token} {rest : List Token} (split : tokens = token :: rest)
    (inner : token.kind ≠ .endOfLine) : EndsLine rest := by
  subst split
  cases ends with
  | last kind => exact absurd kind inner
  | cons ends => exact ends

/-- What is left of the tokens is nothing, or it ends where they end. -/
theorem of_append {used rest : List Token} (split : tokens = used ++ rest) :
    rest = [] ∨ EndsLine rest := by
  induction ends generalizing used with
  | last kind =>
    rcases List.append_eq_singleton_iff.mp split.symm with ⟨_, rfl⟩ | ⟨_, rfl⟩
    · exact .inr (.last kind)
    · exact .inl rfl
  | @cons token tokens ends ih =>
    cases used with
    | nil =>
      rw [List.nil_append] at split
      exact .inr (split ▸ .cons ends)
    | cons first used => exact ih (List.cons.inj split).2

variable {keep : Token → Bool} (stop : ∀ eol, eol.kind = .endOfLine → keep eol = false)
include stop

theorem takeWhile_append (more : List Token) :
    (tokens ++ more).takeWhile keep = tokens.takeWhile keep := by
  induction ends with
  | last kind => simp [stop _ kind]
  | @cons token rest _ ih => by_cases kept : keep token <;> simp [kept, ih]

theorem dropWhile_append (more : List Token) :
    (tokens ++ more).dropWhile keep = tokens.dropWhile keep ++ more := by
  induction ends with
  | last kind => simp [stop _ kind]
  | @cons token rest _ ih => by_cases kept : keep token <;> simp [kept, ih]

theorem dropWhile : EndsLine (tokens.dropWhile keep) := by
  induction ends with
  | last kind => simpa [stop _ kind] using EndsLine.last kind
  | @cons token rest later ih =>
    by_cases kept : keep token
    · simpa [kept] using ih
    · simpa [kept] using EndsLine.cons later

end EndsLine

/-- The parser in a longer text: more tokens stand behind those ahead, and the file ends elsewhere. -/
def Parser.extended (parser : Parser) (more : List Token) (eof : Token) : Parser :=
  { parser with ahead := parser.ahead ++ more, eof := eof }

def Taken.extended {α : Type} (taken : Taken α) (more : List Token) (eof : Token) : Taken α :=
  ⟨taken.item, taken.rest.extended more eof⟩

namespace Parser

variable {parser : Parser} (ends : EndsLine parser.ahead) (more : List Token) (eof : Token)

section
include ends

theorem current_extended : (parser.extended more eof).current = parser.current := by
  obtain ⟨token, rest, ahead⟩ := List.exists_cons_of_ne_nil ends.ne_nil
  simp [current, extended, ahead]

theorem isAt_extended (kind : TokenKind) :
    (parser.extended more eof).isAt kind = parser.isAt kind := by
  simp only [isAt, current_extended ends]

theorem advance_extended :
    (parser.extended more eof).advance = parser.advance.extended more eof := by
  obtain ⟨token, rest, ahead⟩ := List.exists_cons_of_ne_nil ends.ne_nil
  simp [advance, extended, Taken.extended, ahead]

theorem advance_ends (inner : parser.current.kind ≠ .endOfLine) :
    EndsLine parser.advance.rest.ahead := by
  obtain ⟨token, rest, ahead⟩ := List.exists_cons_of_ne_nil ends.ne_nil
  rw [current_of_ahead ahead] at inner
  simpa [advance, ahead] using ends.tail ahead inner

end

theorem report_extended (message : String) (range : Range) :
    (parser.extended more eof).report message range =
      (parser.report message range).extended more eof := by
  have told : (parser.extended more eof).diagnostics = parser.diagnostics := rfl
  simp only [report, told]
  split <;> rfl

theorem stops_at_endOfLine (eol : Token) (kind : eol.kind = .endOfLine) :
    (!eol.kind.resumes) = false := by
  rw [kind]
  rfl

section
include ends

theorem fail_extended (message : String) (lead taken : List Token) :
    (parser.extended more eof).fail message lead taken =
      (parser.fail message lead taken).extended more eof := by
  have passed : (parser.extended more eof).takeWhile (!·.kind.resumes) =
      (parser.takeWhile (!·.kind.resumes)).extended more eof := by
    simp [takeWhile, extended, Taken.extended, ends.takeWhile_append stops_at_endOfLine,
      ends.dropWhile_append stops_at_endOfLine]
  have left : EndsLine (parser.takeWhile (!·.kind.resumes)).rest.ahead :=
    ends.dropWhile stops_at_endOfLine
  simp only [fail, passed, Taken.extended, current_extended left, report_extended]

/-- Giving up on a construct stops at the end of the line. -/
theorem fail_ends (message : String) (lead taken : List Token) :
    EndsLine (parser.fail message lead taken).rest.ahead := by
  simpa [fail, takeWhile] using ends.dropWhile stops_at_endOfLine

theorem complain_extended (complaint : Complaint) :
    (parser.extended more eof).complain complaint =
      (parser.complain complaint).extended more eof :=
  fail_extended ends more eof _ _ _

theorem complain_ends (complaint : Complaint) :
    EndsLine (parser.complain complaint).rest.ahead :=
  fail_ends ends _ _ _

theorem expect_extended (kind : TokenKind) (complaint : Complaint) :
    (parser.extended more eof).expect kind complaint =
      (parser.expect kind complaint).extended more eof := by
  simp only [expect, isAt_extended ends, advance_extended ends, complain_extended ends]
  split <;> rfl

theorem expect_ends {kind : TokenKind} (inner : kind ≠ .endOfLine) (complaint : Complaint) :
    EndsLine (parser.expect kind complaint).rest.ahead := by
  unfold expect
  split
  · next here =>
    refine advance_ends ends ?_
    rwa [of_decide_eq_true here]
  · exact complain_ends ends _

theorem advance_ends_of_atomic (atomic : parser.current.isAtomic) :
    EndsLine parser.advance.rest.ahead := by
  refine advance_ends ends fun kind => ?_
  simp [Token.isAtomic, TokenKind.isAtomic, kind] at atomic

theorem atomic?_extended :
    (parser.extended more eof).atomic? = parser.atomic?.extended more eof := by
  simp only [atomic?, current_extended ends, advance_extended ends]
  split <;> rfl

theorem atomic?_ends : EndsLine parser.atomic?.rest.ahead := by
  unfold atomic?
  split
  · next atomic => exact advance_ends_of_atomic ends atomic
  · exact ends

theorem operand_extended :
    (parser.extended more eof).operand = parser.operand.extended more eof := by
  simp only [operand, current_extended ends, advance_extended ends, complain_extended ends]
  split <;> rfl

theorem operand_ends : EndsLine parser.operand.rest.ahead := by
  unfold operand
  split
  · next atomic => exact advance_ends_of_atomic ends atomic
  · exact complain_ends ends _

theorem advance_ends_of_isAt {kind : TokenKind} (here : parser.isAt kind)
    (inner : kind ≠ .endOfLine) : EndsLine parser.advance.rest.ahead :=
  advance_ends ends (by rwa [of_decide_eq_true here])

theorem expressionTail_extended (left : Node) :
    (parser.extended more eof).expressionTail left =
      (parser.expressionTail left).extended more eof := by
  unfold expressionTail
  simp only [isAt_extended ends, advance_extended ends]
  split
  · next sign =>
    have after := advance_ends_of_isAt ends sign (by decide)
    simp only [Taken.extended, operand_extended after]
  split
  · next opening =>
    have after := advance_ends_of_isAt ends opening (by decide)
    simp only [Taken.extended, atomic?_extended after, expect_extended (atomic?_ends after)]
  · rfl

theorem expressionTail_ends (left : Node) : EndsLine (parser.expressionTail left).rest.ahead := by
  unfold expressionTail
  split
  · next sign => exact operand_ends (advance_ends_of_isAt ends sign (by decide))
  split
  · next opening =>
    exact expect_ends (atomic?_ends (advance_ends_of_isAt ends opening (by decide))) (by decide) _
  · exact ends

theorem expression_extended :
    (parser.extended more eof).expression = parser.expression.extended more eof := by
  simp only [expression, current_extended ends, operand_extended ends, complain_extended ends,
    Taken.extended, expressionTail_extended (operand_ends ends)]
  split <;> rfl

theorem expression_ends : EndsLine parser.expression.rest.ahead := by
  unfold expression
  split
  · exact expressionTail_ends (operand_ends ends) _
  · exact complain_ends ends _

theorem advance_ends_of_isEqualsSign (equals : isEqualsSign parser.current) :
    EndsLine parser.advance.rest.ahead := by
  refine advance_ends ends fun kind => ?_
  simp [isEqualsSign, kind] at equals

theorem bindingValue_extended :
    (parser.extended more eof).bindingValue = parser.bindingValue.extended more eof := by
  unfold bindingValue
  simp only [current_extended ends, advance_extended ends, complain_extended ends]
  split
  · next equals =>
    have after := advance_ends_of_isEqualsSign ends equals
    simp only [Taken.extended, expression_extended after]
  · rfl

theorem bindingValue_ends : EndsLine parser.bindingValue.rest.ahead := by
  unfold bindingValue
  split
  · next equals => exact expression_ends (advance_ends_of_isEqualsSign ends equals)
  · exact complain_ends ends _

theorem expressionStatement_extended :
    (parser.extended more eof).expressionStatement =
      parser.expressionStatement.extended more eof := by
  simp only [expressionStatement, terminator, expression_extended ends, Taken.extended,
    expect_extended (expression_ends ends)]

section
variable (inner : parser.current.kind ≠ .endOfLine)
include inner

theorem misplaced_extended (complaint : Complaint) :
    (parser.extended more eof).misplaced complaint =
      (parser.misplaced complaint).extended more eof := by
  simp only [misplaced, advance_extended ends, Taken.extended,
    fail_extended (advance_ends ends inner)]

theorem binding_extended (form : BindingForm) :
    (parser.extended more eof).binding form = (parser.binding form).extended more eof := by
  have after := advance_ends ends inner
  unfold binding
  simp only [advance_extended ends, Taken.extended, isAt_extended after]
  split
  · next named =>
    have behind := advance_ends_of_isAt after named (by decide)
    simp only [advance_extended after, Taken.extended, bindingValue_extended behind, terminator,
      expect_extended (bindingValue_ends behind)]
  · simp only [fail_extended after, Taken.extended]

theorem endMarker_extended :
    (parser.extended more eof).endMarker = parser.endMarker.extended more eof := by
  have after := advance_ends ends inner
  simp only [endMarker, advance_extended ends, Taken.extended, isAt_extended after,
    advance_extended after]
  split <;> rfl

theorem simpleStatement_extended :
    (parser.extended more eof).simpleStatement = parser.simpleStatement.extended more eof := by
  simp only [simpleStatement, current_extended ends, binding_extended ends more eof inner,
    misplaced_extended ends more eof inner, expressionStatement_extended ends]
  split <;> rfl

theorem header_extended (form : BlockForm) :
    (parser.extended more eof).header form = (parser.header form).extended more eof := by
  have after := advance_ends ends inner
  simp only [header, terminator, advance_extended ends, Taken.extended, expression_extended after,
    expect_extended (expression_ends after)]

end

end

/-- In a longer text a block is cut off at the same place, unless it is open up to the end of the
shorter one. -/
theorem splitBlock_extended {tokens : List Token} (closed : tokens = [] ∨ EndsLine tokens)
    (opened : Nat) :
    splitBlock opened (tokens ++ more) =
        ((splitBlock opened tokens).1, (splitBlock opened tokens).2 ++ more) ∨
      (splitBlock opened tokens).2 = [] ∧ (splitBlock opened (tokens ++ more)).2 <:+ more := by
  induction tokens generalizing opened with
  | nil => exact .inr ⟨by simp [splitBlock], ⟨_, splitBlock_append opened more⟩⟩
  | cons token rest ih =>
    have ends : EndsLine (token :: rest) := closed.resolve_left (List.cons_ne_nil _ _)
    have later := ih (ends.of_append (List.append_cons [] token rest))
    have passing (next : Nat) (here : ∀ rest, splitBlock opened (token :: rest) =
        (token :: (splitBlock next rest).1, (splitBlock next rest).2)) :
        splitBlock opened (token :: rest ++ more) =
            ((splitBlock opened (token :: rest)).1, (splitBlock opened (token :: rest)).2 ++ more) ∨
          (splitBlock opened (token :: rest)).2 = [] ∧
            (splitBlock opened (token :: rest ++ more)).2 <:+ more := by
      rw [List.cons_append, here, here]
      rcases later next with same | ⟨none, left⟩
      · exact .inl (by rw [same])
      · exact .inr ⟨none, left⟩
    by_cases opens : token.kind.opensBlock
    · exact passing (opened + 1) fun rest => by simp [splitBlock, opens]
    by_cases closes : token.kind = .endWord
    · cases opened with
      | zero =>
        have inner : token.kind ≠ .endOfLine := by simp [closes]
        obtain ⟨next, after, rfl⟩ := List.exists_cons_of_ne_nil (ends.tail rfl inner).ne_nil
        by_cases line : next.kind = .endOfLine <;>
          simp [splitBlock, closes, line, TokenKind.opensBlock]
      | succ opened =>
        exact passing opened fun rest => by simp [splitBlock, closes, TokenKind.opensBlock]
    · exact passing opened fun rest => by simp [splitBlock, opens, closes]

theorem skipBlock_extended (ends : EndsLine parser.ahead)
    (opens : parser.current.kind.opensBlock) :
    (parser.extended more eof).skipBlock = parser.skipBlock.extended more eof ∨
      parser.skipBlock.rest.ahead = [] ∧
        (parser.extended more eof).skipBlock.rest.ahead <:+ more := by
  have inner : parser.current.kind ≠ .endOfLine := by
    intro kind
    simp [kind, TokenKind.opensBlock] at opens
  have after := advance_ends ends inner
  have longer : (parser.advance.rest.extended more eof).ahead = parser.advance.rest.ahead ++ more := rfl
  rcases splitBlock_extended more (.inr after) 0 with same | ⟨none, left⟩
  · left
    simp only [skipBlock, advance_extended ends, Taken.extended, longer, same, ← report_extended]
    rfl
  · right
    simp only [skipBlock, advance_extended ends, Taken.extended, longer, report_ahead]
    exact ⟨none, left⟩

end Parser

end LineScript
