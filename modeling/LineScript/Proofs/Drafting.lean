import LineScript.Proofs.Reading

namespace LineScript

open Grammar

/-- What is read of a block so far, in the order of the text. -/
def OpenBlock.parts (block : OpenBlock) : List Node :=
  .leaf block.keyword :: block.condition :: block.headerEnd :: block.body

namespace Draft

/-- What is read so far, in the order of the text: what is done, then the parts of the open blocks
from the outermost inwards. -/
def parts (draft : Draft) : List Node := draft.done ++ draft.opened.reverse.flatMap OpenBlock.parts

theorem parts_add (draft : Draft) (node : Node) :
    (draft.add node).parts = draft.parts ++ [node] := by
  obtain ⟨opened, done⟩ := draft
  cases opened with
  | nil => simp [parts, add]
  | cons block outer => simp [parts, add, OpenBlock.parts]

theorem parts_enter (draft : Draft) (block : OpenBlock) :
    (draft.enter block).parts = draft.parts ++ block.parts := by
  simp [parts, enter]

/-- Closing a block puts one node in the place of its parts. -/
theorem parts_close {draft : Draft} {block : OpenBlock} {outer : List OpenBlock}
    (opened : draft.opened = block :: outer) (ending : Node) :
    ∃ outside, (draft.close ending).parts = outside ++ [block.close ending] ∧
      draft.parts ++ [ending] = outside ++ (block.close ending).children := by
  obtain ⟨_, done⟩ := draft
  subst opened
  refine ⟨parts ⟨outer, done⟩, parts_add _ _, ?_⟩
  simp [parts, OpenBlock.parts, OpenBlock.close, Node.children]

/-- The problems in a draft, in the order of the text. -/
def errors (draft : Draft) : List Node := Node.errorsOf draft.parts

theorem errors_add (draft : Draft) (node : Node) :
    (draft.add node).errors = draft.errors ++ node.errors := by
  simp [errors, parts_add]

theorem errors_enter (draft : Draft) (form : BlockForm) (keyword : Token)
    (condition headerEnd : Node) :
    (draft.enter ⟨form, keyword, condition, headerEnd, []⟩).errors =
      draft.errors ++ (condition.errors ++ headerEnd.errors) := by
  simp [errors, parts_enter, OpenBlock.parts]

theorem errors_close {draft : Draft} {block : OpenBlock} {outer : List OpenBlock}
    (opened : draft.opened = block :: outer) (ending : Node) :
    (draft.close ending).errors = draft.errors ++ ending.errors := by
  obtain ⟨outside, closed, inside⟩ := parts_close opened ending
  have whole : draft.errors ++ ending.errors = Node.errorsOf (draft.parts ++ [ending]) := by
    simp [errors]
  rw [whole, inside, errors, closed]
  simp [OpenBlock.close, Node.children]

theorem opened_add_length (draft : Draft) (node : Node) :
    (draft.add node).opened.length = draft.opened.length := by
  obtain ⟨opened, done⟩ := draft
  cases opened <;> rfl

end Draft

/-- A draft made of the tokens `used`, read inside `depth` blocks. -/
inductive Drafted (failed : Failures) (depth : Int) : Draft → List Token → Prop
  | outermost {used done} : Statements failed depth used done →
      Drafted failed depth ⟨[], done⟩ used
  | inside {outer done before form keyword condition headerEnd body}
      {inCondition inHeader inBody : List Token} : Drafted failed depth ⟨outer, done⟩ before →
      depth + outer.length < maxNesting → blockForm? keyword.kind = some form →
      Expression failed inCondition condition → Terminator failed inHeader headerEnd →
      Statements failed (depth + outer.length + 1) inBody body →
      Drafted failed depth ⟨⟨form, keyword, condition, headerEnd, body⟩ :: outer, done⟩
        (before ++ (keyword :: (inCondition ++ (inHeader ++ inBody))))

namespace Drafted

variable {failed : Failures} {depth : Int} {draft : Draft} {used more : List Token}

theorem pass (made : Drafted failed depth draft used) {eol : Token}
    (kind : eol.kind = .endOfLine) : Drafted failed depth draft (used ++ [eol]) := by
  cases made with
  | outermost statements =>
    have longer := statements.append (.stray kind .nil)
    rw [List.append_nil] at longer
    exact .outermost longer
  | inside outer within form condition headerEnd body =>
    have longer := body.append (.stray kind .nil)
    rw [List.append_nil] at longer
    simpa using inside outer within form condition headerEnd longer

theorem add (made : Drafted failed depth draft used) {node : Node}
    (statement : Statements failed (depth + draft.opened.length) more [node]) :
    Drafted failed depth (draft.add node) (used ++ more) := by
  cases made with
  | outermost statements =>
    simp only [List.length_nil, Int.natCast_zero, Int.add_zero] at statement
    exact .outermost (statements.append statement)
  | inside outer within form condition headerEnd body =>
    simp only [List.length_cons, Int.natCast_add, Int.natCast_one, ← Int.add_assoc] at statement
    simpa [Draft.add] using inside outer within form condition headerEnd (body.append statement)

theorem enter (made : Drafted failed depth draft used) {form : BlockForm} {keyword : Token}
    {condition headerEnd : Node} {inCondition inHeader : List Token}
    (within : depth + draft.opened.length < maxNesting)
    (kind : blockForm? keyword.kind = some form) (test : Expression failed inCondition condition)
    (header : Terminator failed inHeader headerEnd) :
    Drafted failed depth (draft.enter ⟨form, keyword, condition, headerEnd, []⟩)
      (used ++ (keyword :: (inCondition ++ inHeader))) := by
  have opened := inside made within kind test header .nil
  rw [List.append_nil] at opened
  exact opened

theorem close (made : Drafted failed depth draft used) {block : OpenBlock}
    {outer : List OpenBlock} (opened : draft.opened = block :: outer) {ending : Node}
    (marker : BlockEnd failed more ending) :
    Drafted failed depth (draft.close ending) (used ++ more) := by
  cases made with
  | outermost => simp at opened
  | inside outside within form condition headerEnd body =>
    have closed := Statements.block within form condition headerEnd body marker .nil
    simp only [List.append_nil] at closed
    simpa [Draft.close, OpenBlock.close] using outside.add closed

theorem statements (made : Drafted failed depth draft used) (closed : draft.opened = []) :
    Statements failed depth used draft.done := by
  cases made with
  | outermost statements => exact statements
  | inside => simp at closed

end Drafted

namespace Progress

/-- What one step can do: the tokens that it takes, the problems that it meets, and where it leads.
The end of a line right behind the end of a block is never left standing. -/
inductive Move (failed : Failures) (before : Progress) :
    List Token → List Node → Progress → Prop
  | stray {eol parser} : before.parser.current = eol → eol.kind = .endOfLine →
      Move failed before [eol] [] ⟨before.draft, parser⟩
  | simple {used node parser} : Simple failed used node →
      Move failed before used node.errors ⟨before.draft.add node, parser⟩
  | tooDeep {used node parser} : before.isFull → failed .nestedTooDeeply used node →
      Move failed before used node.errors ⟨before.draft.add node, parser⟩
  | enter {form keyword condition headerEnd parser} {inCondition inHeader : List Token} :
      ¬ before.isFull → blockForm? keyword.kind = some form →
      Expression failed inCondition condition → Terminator failed inHeader headerEnd →
      Move failed before (keyword :: (inCondition ++ inHeader))
        (condition.errors ++ headerEnd.errors)
        ⟨before.draft.enter ⟨form, keyword, condition, headerEnd, []⟩, parser⟩
  | leave {block outer used ending parser} : before.draft.opened = block :: outer →
      BlockEnd failed used ending →
      (used.length = 1 → parser.current.kind ≠ .endOfLine) →
      Move failed before used ending.errors ⟨before.draft.close ending, parser⟩

theorem opensBlock_of_blockForm? {kind : TokenKind} {form : BlockForm}
    (opens : blockForm? kind = some form) : kind.opensBlock := by
  cases kind <;> simp_all [blockForm?, TokenKind.opensBlock]

theorem enter_moves {progress : Progress} (sane : progress.parser.Sane) {form : BlockForm}
    (kind : blockForm? progress.parser.current.kind = some form) :
    ∃ used errors, Parser.Reads progress.parser used errors (progress.enter form).parser ∧
      Move keptFailures progress used errors (progress.enter form) := by
  have more : progress.parser.current.kind ≠ .endOfFile := by
    intro last
    simp [last, blockForm?] at kind
  unfold enter
  split
  · next full =>
    obtain ⟨used, reads, failed⟩ := Parser.skipBlock_reads sane (opensBlock_of_blockForm? kind)
    exact ⟨used, _, reads, .tooDeep full failed⟩
  · next room =>
    obtain ⟨inCondition, inHeader, condition, headerEnd, item, reads, test, header⟩ :=
      Parser.header_reads sane form more
    simp only [item]
    exact ⟨_, _, reads, .enter room kind test header⟩

theorem simple_moves {progress : Progress} (sane : progress.parser.Sane)
    (more : progress.parser.current.kind ≠ .endOfFile)
    (inline : progress.parser.current.kind ≠ .endOfLine)
    (single : blockForm? progress.parser.current.kind = none) :
    ∃ used errors,
      Parser.Reads progress.parser used errors (progress.add Parser.simpleStatement).parser ∧
      Move keptFailures progress used errors (progress.add Parser.simpleStatement) := by
  obtain ⟨used, reads, statement⟩ := Parser.simpleStatement_reads sane more inline single
  exact ⟨used, _, reads, .simple statement⟩

/-- Every step is one of the moves. -/
theorem step_moves {progress : Progress} (sane : progress.parser.Sane)
    (more : progress.parser.ahead ≠ []) :
    ∃ used errors, Parser.Reads progress.parser used errors progress.step.parser ∧
      Move keptFailures progress used errors progress.step := by
  have inner : progress.parser.current.kind ≠ .endOfFile := by
    obtain ⟨token, rest, ahead⟩ := List.exists_cons_of_ne_nil more
    rw [Parser.current_of_ahead ahead]
    exact sane.inner token (by simp [ahead])
  unfold step
  split
  · next kind =>
    obtain ⟨after, advanced, reads⟩ := sane.advance_reads inner
    simp only [advanced]
    exact ⟨_, _, reads, .stray rfl kind⟩
  · next kind => exact enter_moves sane (by rw [kind]; rfl)
  · next kind => exact enter_moves sane (by rw [kind]; rfl)
  · next kind =>
    split
    · exact simple_moves sane inner (by simp [kind]) (by simp [kind, blockForm?])
    · next some =>
      obtain ⟨used, reads, marker, greedy⟩ := Parser.endMarker_reads sane kind
      obtain ⟨block, outer, opened⟩ := List.exists_cons_of_ne_nil (by simpa using some)
      exact ⟨used, _, reads, .leave opened marker greedy⟩
  · next inline notIf notWhile _ =>
    refine simple_moves sane inner inline ?_
    cases kind : progress.parser.current.kind <;> simp_all [blockForm?]

variable {failed : Failures} {before after : Progress} {used more : List Token}
  {errors : List Node}

theorem Move.told (move : Move failed before used errors after) :
    after.draft.errors = before.draft.errors ++ errors := by
  cases move with
  | stray => rw [List.append_nil]
  | simple => exact Draft.errors_add _ _
  | tooDeep => exact Draft.errors_add _ _
  | enter => exact Draft.errors_enter _ _ _ _ _
  | leave opened => exact Draft.errors_close opened _

theorem Move.drafted (move : Move failed before more errors after)
    (made : Drafted failed before.parser.depth before.draft used) :
    Drafted failed before.parser.depth after.draft (used ++ more) := by
  cases move with
  | stray _ kind => exact made.pass kind
  | simple statement =>
    apply made.add
    simpa using Statements.simple statement .nil
  | tooDeep full node =>
    apply made.add
    simpa using Statements.tooDeep (by simpa [isFull] using full) node .nil
  | enter room kind test header =>
    exact made.enter (by simpa [isFull] using room) kind test header
  | leave opened marker => exact made.close opened marker

/-- From a drafted state, all that follows to another one has been read into the draft. -/
structure Grows (failed : Failures) (before : Progress) (used : List Token) (after : Progress) :
    Prop where
  reads : ∃ errors, Parser.Reads before.parser used errors after.parser ∧
    after.draft.errors = before.draft.errors ++ errors
  drafted {past : List Token} : Drafted failed before.parser.depth before.draft past →
    Drafted failed before.parser.depth after.draft (past ++ used)

theorem Grows.refl (failed : Failures) (progress : Progress) : Grows failed progress [] progress where
  reads := ⟨[], .refl _, by rw [List.append_nil]⟩
  drafted made := by rwa [List.append_nil]

theorem Grows.trans {first second third : Progress} (start : Grows failed first used second)
    (next : Grows failed second more third) : Grows failed first (used ++ more) third := by
  obtain ⟨errors, reads, told⟩ := start.reads
  obtain ⟨others, later, toldLater⟩ := next.reads
  refine ⟨⟨errors ++ others, reads.trans later, ?_⟩, ?_⟩
  · rw [toldLater, told, List.append_assoc]
  · intro past made
    rw [← List.append_assoc]
    have middle := start.drafted made
    rw [← reads.depth] at middle ⊢
    exact next.drafted middle

theorem Grows.sane (grows : Grows failed before used after)
    (sane : before.parser.Sane) : after.parser.Sane := by
  obtain ⟨errors, reads, _⟩ := grows.reads
  exact reads.sane sane

theorem step_grows {progress : Progress} (sane : progress.parser.Sane)
    (more : progress.parser.ahead ≠ []) : ∃ used, Grows keptFailures progress used progress.step := by
  obtain ⟨used, errors, reads, move⟩ := step_moves sane more
  exact ⟨used, ⟨errors, reads, move.told⟩, move.drafted⟩

theorem run_grows (single : Bool) (progress : Progress) (sane : progress.parser.Sane) :
    ∃ used, Grows keptFailures progress used (progress.run single) := by
  fun_induction run single progress with
  | case1 progress ended => exact ⟨[], .refl _ _⟩
  | case2 progress more done => exact ⟨[], .refl _ _⟩
  | case3 progress more busy shorter ih =>
    obtain ⟨first, step⟩ := step_grows sane more
    obtain ⟨rest, later⟩ := ih (step.sane sane)
    exact ⟨first ++ rest, step.trans later⟩

/-- A run that does not stop early reads everything. -/
theorem run_ahead (progress : Progress) : (progress.run false).parser.ahead = [] := by
  fun_induction run false progress with
  | case1 progress ended => exact ended
  | case2 progress more done => simp at done
  | case3 progress more busy shorter ih => exact ih

theorem opened_close_length {draft : Draft} {opened : Nat}
    (length : draft.opened.length = opened + 1) (ending : Node) :
    (draft.close ending).opened.length = opened := by
  obtain ⟨blocks, done⟩ := draft
  cases blocks with
  | nil => simp at length
  | cons block outer =>
    simp only [Draft.close, Draft.opened_add_length]
    simpa using length

/-- At the end of the file the blocks that are open are closed, and nothing more is read. -/
theorem closeAll_grows {opened : Nat} (progress : Progress) (sane : progress.parser.Sane)
    (length : progress.draft.opened.length = opened) (ended : progress.parser.ahead = []) :
    Grows keptFailures progress [] (closeAll opened progress) ∧
      (closeAll opened progress).draft.opened = [] := by
  induction opened generalizing progress with
  | zero => exact ⟨.refl _ _, List.eq_nil_of_length_eq_zero length⟩
  | succ opened ih =>
    obtain ⟨used, reads, failed⟩ := Parser.complain_reads sane .expectedEnd rfl
    have empty : used = [] ∧ (progress.parser.complain .expectedEnd).rest.ahead = [] := by
      simpa [ended] using reads.ahead.symm
    rw [empty.1] at reads failed
    obtain ⟨block, outer, cons⟩ := List.exists_cons_of_length_eq_add_one length
    have closed : Grows keptFailures progress []
        ⟨progress.draft.close (progress.parser.complain .expectedEnd).item,
          (progress.parser.complain .expectedEnd).rest⟩ :=
      ⟨⟨_, reads, Draft.errors_close cons _⟩, fun made => made.close cons (.missed failed)⟩
    obtain ⟨grows, none⟩ := ih ⟨_, _⟩ (reads.sane sane) (opened_close_length length _) empty.2
    exact ⟨closed.trans grows, none⟩

/-- A finished program has read everything and has no block left open. -/
theorem finish_grows (progress : Progress) (sane : progress.parser.Sane) :
    Grows keptFailures progress progress.parser.ahead (progress.finish false) ∧
      (progress.finish false).parser.ahead = [] ∧ (progress.finish false).draft.opened = [] := by
  have ended := progress.run_ahead
  obtain ⟨used, run⟩ := progress.run_grows false sane
  obtain ⟨close, none⟩ := closeAll_grows (progress.run false) (run.sane sane) rfl ended
  obtain ⟨_, running, _⟩ := run.reads
  obtain ⟨_, closing, _⟩ := close.reads
  have whole : progress.parser.ahead = used := by rw [running.ahead, ended, List.append_nil]
  have grows := run.trans close
  rw [List.append_nil, ← whole] at grows
  exact ⟨grows, closing.ahead.symm.trans ended, none⟩

end Progress

namespace Parser

/-- Whatever stands ahead is read as a program, with the failed constructs in it, and the problems
in the tree are what is reported. -/
theorem program_reads {parser : Parser} (sane : parser.Sane) (outermost : parser.depth = 0) :
    Program keptFailures (parser.ahead ++ [parser.eof]) parser.program.item ∧
      Reads parser parser.ahead parser.program.item.errors parser.program.rest := by
  obtain ⟨grows, ended, closed⟩ := Progress.finish_grows ⟨.empty, parser⟩ sane
  obtain ⟨errors, reads, told⟩ := grows.reads
  have statements := (grows.drafted (.outermost .nil)).statements closed
  have item : parser.program.item =
      .program (Progress.finish false ⟨.empty, parser⟩).draft.done parser.eof := by
    simp [program, current, ended, reads.eof]
  have problems : parser.program.item.errors = errors := by
    have start : Draft.empty.errors = [] := rfl
    rw [Draft.errors, Draft.parts, closed] at told
    simpa [item, start] using told
  rw [problems, item]
  refine ⟨.mk ?_ sane.last, reads⟩
  rw [← outermost]
  exact statements

end Parser

end LineScript
