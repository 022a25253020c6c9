import LineScript.Parsing.Complaint
import LineScript.Parsing.Parser

namespace LineScript

namespace Parser

/-- Report a complaint about the tokens from the reading position on. -/
def complain (parser : Parser) (complaint : Complaint) : Taken Node :=
  parser.fail complaint.message [] []

/-- Report a complaint about the current token and what follows it. -/
def misplaced (parser : Parser) (complaint : Complaint) : Taken Node :=
  let token := parser.advance
  token.rest.fail complaint.message [] [token.item]

/-- Read a token of the wanted kind. -/
def expect (parser : Parser) (kind : TokenKind) (complaint : Complaint) : Taken Node :=
  if parser.isAt kind then
    let token := parser.advance
    ⟨.leaf token.item, token.rest⟩
  else parser.complain complaint

def terminator (parser : Parser) : Taken Node :=
  parser.expect .endOfLine .expectedEndOfLine

/-- Read an integer or a name, if there is one. -/
def atomic? (parser : Parser) : Taken (Option Node) :=
  if parser.current.isAtomic then
    let token := parser.advance
    ⟨some (.atomic token.item), token.rest⟩
  else ⟨none, parser⟩

def operand (parser : Parser) : Taken Node :=
  if parser.current.isAtomic then
    let token := parser.advance
    ⟨.atomic token.item, token.rest⟩
  else parser.complain .expectedExpression

/-- Read what follows the first operand of an expression: one operator with its operand, one
call, or nothing. -/
def expressionTail (parser : Parser) (left : Node) : Taken Node :=
  if parser.isAt .operator then
    let operator := parser.advance
    let right := operator.rest.operand
    ⟨.binary left operator.item right.item, right.rest⟩
  else if parser.isAt .leftParen then
    let opening := parser.advance
    let argument := opening.rest.atomic?
    let closing := argument.rest.expect .rightParen .expectedRightParen
    ⟨.call left opening.item argument.item closing.item, closing.rest⟩
  else ⟨left, parser⟩

def expression (parser : Parser) : Taken Node :=
  if parser.current.isAtomic then
    let left := parser.operand
    left.rest.expressionTail left.item
  else parser.complain .expectedExpression

def expressionStatement (parser : Parser) : Taken Node :=
  let value := parser.expression
  let terminator := value.rest.terminator
  ⟨.expression value.item terminator.item, terminator.rest⟩

def isEqualsSign (token : Token) : Bool := token.kind = .operator ∧ token.text = "="

/-- Read the equals sign of a binding and the value behind it. -/
def bindingValue (parser : Parser) : Taken (Option Token × Node) :=
  if isEqualsSign parser.current then
    let equals := parser.advance
    let value := equals.rest.expression
    ⟨(some equals.item, value.item), value.rest⟩
  else
    let value := parser.complain .expectedEquals
    ⟨(none, value.item), value.rest⟩

/-- Read a binding, with the current token as its keyword. -/
def binding (parser : Parser) (form : BindingForm) : Taken Node :=
  let keyword := parser.advance
  if keyword.rest.isAt .name then
    let name := keyword.rest.advance
    let value := name.rest.bindingValue
    let terminator := value.rest.terminator
    ⟨.binding form keyword.item name.item value.item.1 value.item.2 terminator.item,
      terminator.rest⟩
  else keyword.rest.fail Complaint.expectedName.message [keyword.item] []

/-- Read the current token as the end of a block, with the end of its line if that follows. -/
def endMarker (parser : Parser) : Taken Node :=
  let keyword := parser.advance
  if keyword.rest.isAt .endOfLine then
    let terminator := keyword.rest.advance
    ⟨.endMarker keyword.item (some terminator.item), terminator.rest⟩
  else ⟨.endMarker keyword.item none, keyword.rest⟩

/-- Read a statement that is no block. -/
def simpleStatement (parser : Parser) : Taken Node :=
  match parser.current.kind with
  | .letWord => parser.binding .introduce
  | .setWord => parser.binding .assign
  | .endWord => parser.misplaced .unexpectedEnd
  | .integer | .name => parser.expressionStatement
  | _ => parser.misplaced .expectedStatement

end Parser

end LineScript
