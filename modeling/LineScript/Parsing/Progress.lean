import LineScript.Parsing.Consumption

namespace LineScript

/-- A draft together with the parser that it grows from. -/
structure Progress where
  draft : Draft
  parser : Parser

namespace Progress

/-- Whether a block that starts here would be nested too deeply. -/
def isFull (progress : Progress) : Bool :=
  maxNesting ≤ progress.parser.depth + progress.draft.opened.length

def add (progress : Progress) (read : Parser → Taken Node) : Progress :=
  let statement := read progress.parser
  ⟨progress.draft.add statement.item, statement.rest⟩

def enter (progress : Progress) (form : BlockForm) : Progress :=
  if progress.isFull then progress.add Parser.skipBlock
  else
    let block := progress.parser.header form
    ⟨progress.draft.enter block.item, block.rest⟩

/-- Take one step at a token: pass a stray end of line, enter or leave a block, or read a
statement. -/
def step (progress : Progress) : Progress :=
  match progress.parser.current.kind with
  | .endOfLine => ⟨progress.draft, progress.parser.advance.rest⟩
  | .ifWord => progress.enter .conditional
  | .whileWord => progress.enter .loop
  | .endWord =>
    if progress.draft.opened.isEmpty then progress.add Parser.simpleStatement
    else
      let marker := progress.parser.endMarker
      ⟨progress.draft.close marker.item, marker.rest⟩
  | _ => progress.add Parser.simpleStatement

/-- Every step takes at least one token. -/
theorem step_length_lt {progress : Progress} (more : progress.parser.ahead ≠ []) :
    progress.step.parser.ahead.length < progress.parser.ahead.length := by
  have entering (form : BlockForm) :
      (progress.enter form).parser.ahead.length < progress.parser.ahead.length := by
    unfold enter
    split
    · exact Parser.skipBlock_length_lt more
    · exact Parser.header_length_lt form more
  unfold step
  split
  · exact Parser.advance_length_lt more
  · exact entering _
  · exact entering _
  · split
    · exact Parser.simpleStatement_length_lt more
    · exact Parser.endMarker_length_lt more
  · exact Parser.simpleStatement_length_lt more

/-- Take steps up to the end of the file, or with `single` until no block is open. -/
def run (single : Bool) (progress : Progress) : Progress :=
  if ended : progress.parser.ahead = [] then progress
  else if single && progress.draft.opened.isEmpty then progress
  else
    have := step_length_lt ended
    progress.step.run single
termination_by progress.parser.ahead.length

/-- Close every block that is still open at the end of the file, each with a complaint. -/
def closeAll : Nat → Progress → Progress
  | 0, progress => progress
  | opened + 1, progress =>
    let ending := progress.parser.complain .expectedEnd
    closeAll opened ⟨progress.draft.close ending.item, ending.rest⟩

/-- Run, then close what is left open. -/
def finish (single : Bool) (progress : Progress) : Progress :=
  let reached := progress.run single
  reached.closeAll reached.draft.opened.length

end Progress

namespace Parser

/-- Read a block, with the current token as its keyword. -/
def block (parser : Parser) (form : BlockForm) : Taken Node :=
  let header := parser.header form
  let reached := Progress.finish true ⟨.enter .empty header.item, header.rest⟩
  ⟨reached.draft.done.head?.getD .unknown, reached.parser⟩

def statement (parser : Parser) : Taken Node :=
  let nested (form : BlockForm) : Taken Node :=
    if maxNesting ≤ parser.depth then parser.skipBlock else parser.block form
  match parser.current.kind with
  | .ifWord => nested .conditional
  | .whileWord => nested .loop
  | _ => parser.simpleStatement

def program (parser : Parser) : Taken Node :=
  let reached := Progress.finish false ⟨.empty, parser⟩
  ⟨.program reached.draft.done reached.parser.current, reached.parser⟩

end Parser

/-- Read a token list as a program, and what there is to say about its shape. -/
def parseTokens (tokens : List Token) : Node × List Diagnostic :=
  let program := (Parser.ofTokens tokens).program
  (program.item, program.rest.diagnostics)

end LineScript
