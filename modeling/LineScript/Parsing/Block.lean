import LineScript.Parsing.Statement

namespace LineScript

/-- The deepest nesting of blocks that is read into the tree. -/
def maxNesting : Int := 100

/-- A block whose end has not been read yet. -/
structure OpenBlock where
  form : BlockForm
  keyword : Token
  condition : Node
  headerEnd : Node
  body : List Node

def OpenBlock.close (block : OpenBlock) (ending : Node) : Node :=
  .block block.form block.keyword block.condition block.headerEnd block.body ending

/-- A program while it is read: the blocks still open, innermost first, and the statements that
are done outside all of them. -/
structure Draft where
  opened : List OpenBlock
  done : List Node

namespace Draft

def empty : Draft := ⟨[], []⟩

def enter (draft : Draft) (block : OpenBlock) : Draft :=
  { draft with opened := block :: draft.opened }

/-- Add a statement to the innermost open block. -/
def add (draft : Draft) (node : Node) : Draft :=
  match draft.opened with
  | [] => { draft with done := draft.done ++ [node] }
  | block :: outer => { draft with opened := { block with body := block.body ++ [node] } :: outer }

/-- Close the innermost open block. -/
def close (draft : Draft) (ending : Node) : Draft :=
  match draft.opened with
  | [] => draft
  | block :: outer => { draft with opened := outer }.add (block.close ending)

end Draft

namespace Parser

/-- Cut off the shortest run of tokens that closes `opened + 1` blocks, together with an end of line
right behind it, or else everything. -/
def splitBlock : Nat → List Token → List Token × List Token
  | _, [] => ([], [])
  | opened, token :: rest =>
    if token.kind.opensBlock then
      let split := splitBlock (opened + 1) rest
      (token :: split.1, split.2)
    else if token.kind = .endWord then
      match opened with
      | 0 =>
        if (rest.head?.any (·.kind = .endOfLine)) then (token :: rest.take 1, rest.drop 1)
        else ([token], rest)
      | opened + 1 =>
        let split := splitBlock opened rest
        (token :: split.1, split.2)
    else
      let split := splitBlock opened rest
      (token :: split.1, split.2)

/-- Swallow a whole block, up to its matching end, without looking into it. -/
def skipBlock (parser : Parser) : Taken Node :=
  let keyword := parser.advance
  let split := splitBlock 0 keyword.rest.ahead
  let after := { keyword.rest with
    read := split.1.reverse ++ keyword.rest.read
    ahead := split.2 }
  let range := rangeOf (keyword.item :: split.1) keyword.item.range.start
  let message := Complaint.nestedTooDeeply.message
  ⟨.error message range (keyword.item :: split.1), after.report message range⟩

/-- Read the header of a block, with the current token as its keyword. -/
def header (parser : Parser) (form : BlockForm) : Taken OpenBlock :=
  let keyword := parser.advance
  let condition := keyword.rest.expression
  let headerEnd := condition.rest.terminator
  ⟨⟨form, keyword.item, condition.item, headerEnd.item, []⟩, headerEnd.rest⟩

end Parser

end LineScript
