import LineScript.Proofs.Acceptance
import LineScript.Proofs.Reporting

namespace LineScript

namespace Parser

/-- How reading goes on: past tokens, and maybe with a complaint about the place where it was. -/
inductive Proceeds (start : Parser) : Parser → Prop
  | here : Proceeds start start
  | pass {parser used ahead} : Proceeds start parser → parser.ahead = used ++ ahead →
      Proceeds start (parser.past used ahead)
  | complain {parser used ahead range} (message : String) : Proceeds start parser →
      parser.ahead = used ++ ahead → range.start = parser.current.range.start →
      Proceeds start ((parser.past used ahead).report message range)

/-- The current token is read, and it is the next one ahead unless the end of the file is reached. -/
theorem advance_eq (parser : Parser) : ∃ used ahead, parser.ahead = used ++ ahead ∧
    parser.advance = ⟨parser.current, parser.past used ahead⟩ := by
  obtain ⟨read, ahead, eof, beyond, diagnostics, depth⟩ := parser
  cases ahead with
  | nil => exact ⟨[], [], rfl, rfl⟩
  | cons token ahead => exact ⟨[token], ahead, rfl, rfl⟩

theorem past_past (parser : Parser) (first second middle ahead : List Token) :
    (parser.past first middle).past second ahead = parser.past (first ++ second) ahead := by
  simp [past]

namespace Proceeds

variable {start parser : Parser} (reached : Proceeds start parser)
include reached

theorem advance : Proceeds start parser.advance.rest := by
  obtain ⟨used, ahead, split, advanced⟩ := parser.advance_eq
  rw [advanced]
  exact reached.pass split

/-- Where nothing was taken before, the complaint is about the current token. -/
theorem fail (message : String) (lead : List Token) :
    Proceeds start (parser.fail message lead []).rest := by
  refine reached.complain message List.takeWhile_append_dropWhile.symm ?_
  cases tokens : parser.ahead with
  | nil => simp [takeWhile, current, tokens, rangeOf, Range.point]
  | cons token ahead =>
    by_cases resumes : token.kind.resumes
    · simp [takeWhile, current, tokens, resumes, rangeOf, Range.point]
    · simp [takeWhile, current, tokens, resumes, rangeOf_cons_start]

theorem complains (complaint : Complaint) : Proceeds start (parser.complain complaint).rest :=
  reached.fail complaint.message []

theorem misplaced (complaint : Complaint) : Proceeds start (parser.misplaced complaint).rest := by
  obtain ⟨used, ahead, split, advanced⟩ := parser.advance_eq
  have rest : (parser.misplaced complaint).rest =
      (parser.past (used ++ ahead.takeWhile (!·.kind.resumes)) (ahead.dropWhile (!·.kind.resumes))).report
        complaint.message (rangeOf (parser.current :: ahead.takeWhile (!·.kind.resumes))
          ((parser.past used ahead).takeWhile (!·.kind.resumes)).rest.current.range.start) := by
    rw [Parser.misplaced, advanced, ← past_past _ _ _ ahead]
    rfl
  rw [rest]
  refine reached.complain _ ?_ (rangeOf_cons_start _ _ _)
  rw [split, List.append_assoc, List.takeWhile_append_dropWhile]

theorem skipBlock : Proceeds start parser.skipBlock.rest := by
  obtain ⟨used, ahead, split, advanced⟩ := parser.advance_eq
  have rest : parser.skipBlock.rest =
      (parser.past (used ++ (splitBlock 0 ahead).1) (splitBlock 0 ahead).2).report
        Complaint.nestedTooDeeply.message
        (rangeOf (parser.current :: (splitBlock 0 ahead).1) parser.current.range.start) := by
    rw [Parser.skipBlock, advanced, ← past_past _ _ _ ahead]
    rfl
  rw [rest]
  refine reached.complain _ ?_ (rangeOf_cons_start _ _ _)
  rw [split, List.append_assoc, splitBlock_append]

theorem expect (kind : TokenKind) (complaint : Complaint) :
    Proceeds start (parser.expect kind complaint).rest := by
  unfold Parser.expect
  split
  · exact reached.advance
  · exact reached.complains complaint

theorem terminator : Proceeds start parser.terminator.rest := reached.expect _ _

theorem atomic? : Proceeds start parser.atomic?.rest := by
  unfold Parser.atomic?
  split
  · exact reached.advance
  · exact reached

theorem operand : Proceeds start parser.operand.rest := by
  unfold Parser.operand
  split
  · exact reached.advance
  · exact reached.complains _

theorem expressionTail (left : Node) : Proceeds start (parser.expressionTail left).rest := by
  unfold Parser.expressionTail
  split
  · exact reached.advance.operand
  split
  · exact reached.advance.atomic?.expect _ _
  · exact reached

theorem expression : Proceeds start parser.expression.rest := by
  unfold Parser.expression
  split
  · exact reached.operand.expressionTail _
  · exact reached.complains _

theorem bindingValue : Proceeds start parser.bindingValue.rest := by
  unfold Parser.bindingValue
  split
  · exact reached.advance.expression
  · exact reached.complains _

theorem binding (form : BindingForm) : Proceeds start (parser.binding form).rest := by
  unfold Parser.binding
  dsimp only
  split
  · exact reached.advance.advance.bindingValue.terminator
  · exact reached.advance.fail _ _

theorem endMarker : Proceeds start parser.endMarker.rest := by
  unfold Parser.endMarker
  dsimp only
  split
  · exact reached.advance.advance
  · exact reached.advance

theorem simpleStatement : Proceeds start parser.simpleStatement.rest := by
  unfold Parser.simpleStatement
  split
  · exact reached.binding _
  · exact reached.binding _
  · exact reached.misplaced _
  · exact reached.expression.terminator
  · exact reached.expression.terminator
  · exact reached.misplaced _

theorem header (form : BlockForm) : Proceeds start (parser.header form).rest :=
  reached.advance.expression.terminator

end Proceeds

end Parser

namespace Progress

variable {start : Parser} {progress : Progress} (reached : start.Proceeds progress.parser)
include reached

theorem enter_proceeds (form : BlockForm) : start.Proceeds (progress.enter form).parser := by
  unfold enter
  split
  · exact reached.skipBlock
  · exact reached.header form

theorem step_proceeds : start.Proceeds progress.step.parser := by
  unfold step
  split
  · exact reached.advance
  · exact enter_proceeds reached _
  · exact enter_proceeds reached _
  · split
    · exact reached.simpleStatement
    · exact reached.endMarker
  · exact reached.simpleStatement

theorem run_proceeds (single : Bool) : start.Proceeds (progress.run single).parser := by
  fun_induction run single progress with
  | case1 => exact reached
  | case2 => exact reached
  | case3 progress _ _ _ ih => exact ih (step_proceeds reached)

theorem closeAll_proceeds (opened : Nat) : start.Proceeds (closeAll opened progress).parser := by
  induction opened generalizing progress with
  | zero => exact reached
  | succ opened ih => exact ih (reached.complains _)

end Progress

namespace Parser

theorem program_proceeds (parser : Parser) : Proceeds parser parser.program.rest :=
  Progress.closeAll_proceeds (@Progress.run_proceeds parser ⟨.empty, parser⟩ .here false) _

/-- The lines of the tokens ahead rise, and so do those of the problems so far, all of them up to the
place of reading. -/
structure Ascends (parser : Parser) : Prop where
  tokens : (parser.ahead ++ [parser.eof]).Pairwise (·.line ≤ ·.line)
  rising : parser.diagnostics.Pairwise (·.line < ·.line)
  behind : ∀ diagnostic ∈ parser.diagnostics, diagnostic.line ≤ parser.current.line

theorem current_mem (parser : Parser) : parser.current ∈ parser.ahead ++ [parser.eof] := by
  rw [current]
  cases parser.ahead <;> simp

namespace Ascends

variable {parser : Parser} (ascends : parser.Ascends)
include ascends

theorem line_le_past {used ahead : List Token} (split : parser.ahead = used ++ ahead) :
    parser.current.line ≤ (parser.past used ahead).current.line := by
  cases used with
  | nil =>
    rw [current, current, split]
    exact Int.le_refl _
  | cons token used =>
    have rising := ascends.tokens
    rw [split] at rising
    have first : parser.current = token := by simp [current, split]
    have next : (parser.past (token :: used) ahead).current ∈ used ++ ahead ++ [parser.eof] := by
      have member := (parser.past (token :: used) ahead).current_mem
      rw [List.append_assoc]
      exact List.mem_append_right _ member
    rw [first]
    exact (List.pairwise_cons.mp rising).1 _ next

theorem pass {used ahead : List Token} (split : parser.ahead = used ++ ahead) :
    (parser.past used ahead).Ascends := by
  have later := ascends.line_le_past split
  refine ⟨?_, ascends.rising, fun diagnostic told => Int.le_trans (ascends.behind diagnostic told) later⟩
  have rising := ascends.tokens
  rw [split, List.append_assoc] at rising
  exact rising.sublist (List.sublist_append_right used _)

/-- Of the problems of a line only the first is reported, so the lines rise strictly. -/
theorem report {range : Range} (message : String)
    (after : ∀ diagnostic ∈ parser.diagnostics, diagnostic.line ≤ range.start.line)
    (before : range.start.line ≤ parser.current.line) : (parser.report message range).Ascends := by
  unfold Parser.report
  split
  · exact ascends
  · next fresh =>
    refine ⟨ascends.tokens, ?_, ?_⟩
    · refine List.pairwise_append.mpr ⟨ascends.rising, List.pairwise_singleton _ _, ?_⟩
      intro diagnostic told new one
      obtain rfl := List.mem_singleton.mp one
      have other : diagnostic.line ≠ range.start.line := fun same =>
        fresh (List.any_eq_true.mpr ⟨diagnostic, told, decide_eq_true same⟩)
      have order := after diagnostic told
      exact Int.lt_iff_le_and_ne.mpr ⟨order, other⟩
    · exact List.forall_mem_append.mpr ⟨ascends.behind, List.forall_mem_singleton.mpr before⟩

end Ascends

theorem Proceeds.ascends {start parser : Parser} (reached : Proceeds start parser)
    (ascends : start.Ascends) : parser.Ascends := by
  induction reached with
  | here => exact ascends
  | pass _ split ih => exact ih.pass split
  | complain message _ split place ih =>
    refine (ih.pass split).report message ?_ ?_
    · rw [place]
      exact ih.behind
    · rw [place]
      exact ih.line_le_past split

end Parser

end LineScript
