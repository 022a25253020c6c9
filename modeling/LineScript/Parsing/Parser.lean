import LineScript.Diagnostic
import LineScript.Fault
import LineScript.Slot
import LineScript.Tree.Node

namespace LineScript

/-- A reading position in a token list, with what has been reported so far. Reading never passes
the first end of the file: `ahead` holds the tokens before it that are still to be read, `beyond`
what a caller has put behind it. `read` holds the tokens read, latest first, and `depth` how many
blocks count as open around the position. -/
structure Parser where
  read : List Token
  ahead : List Token
  eof : Token
  beyond : List Token
  diagnostics : List Diagnostic
  depth : Int

/-- Something read, and the parser behind it. -/
structure Taken (α : Type) where
  item : α
  rest : Parser

namespace Parser

/-- The end of the file for a token list that lacks one. -/
def endAfter (tokens : List Token) : Token :=
  match tokens.getLast? with
  | none => ⟨0, .endOfFile, "", .point ⟨0, 0⟩, ""⟩
  | some last => ⟨last.id + 1, .endOfFile, "", .point last.range.stop, ""⟩

def isEnd (token : Token) : Bool := token.kind = .endOfFile

/-- A parser at the start of a token list. -/
def ofTokens (tokens : List Token) : Parser :=
  let ahead := tokens.takeWhile (!isEnd ·)
  match tokens.dropWhile (!isEnd ·) with
  | [] => ⟨[], ahead, endAfter tokens, [], [], 0⟩
  | eof :: beyond =>
    ⟨[], ahead, eof, if tokens.getLast?.any isEnd then beyond else beyond ++ [endAfter tokens], [], 0⟩

/-- The tokens from the reading position on. -/
def remaining (parser : Parser) : List Token :=
  parser.ahead ++ parser.eof :: parser.beyond

/-- The whole token list, which no reading changes. -/
def tokens (parser : Parser) : List Token :=
  parser.read.reverse ++ parser.remaining

def cursor (parser : Parser) : Nat := parser.read.length

def lastToken (parser : Parser) : Token := parser.beyond.getLast?.getD parser.eof

def current (parser : Parser) : Token := parser.ahead.head?.getD parser.eof

/-- The token `offset` places on, or the last one of the list. A negative offset leads back, and from
the start of the list on to its end. -/
def peek (parser : Parser) (offset : Int) : Except Fault Token :=
  let place : Int := parser.cursor + offset
  if parser.tokens.length ≤ place then .ok parser.lastToken
  else match (slot? parser.tokens.length place).bind (parser.tokens[·]?) with
    | none => .error .indexOutside
    | some token => .ok token

def isAt (parser : Parser) (kind : TokenKind) : Bool := parser.current.kind = kind

/-- Read the current token. The end of the file is read without moving. -/
def advance (parser : Parser) : Taken Token :=
  match parser.ahead with
  | [] => ⟨parser.eof, parser⟩
  | token :: ahead => ⟨token, { parser with read := token :: parser.read, ahead := ahead }⟩

/-- Read tokens as long as they satisfy `keep`. -/
def takeWhile (parser : Parser) (keep : Token → Bool) : Taken (List Token) :=
  ⟨parser.ahead.takeWhile keep, { parser with
    read := (parser.ahead.takeWhile keep).reverse ++ parser.read
    ahead := parser.ahead.dropWhile keep }⟩

/-- Report a problem unless its line has one already. -/
def report (parser : Parser) (message : String) (range : Range) : Parser :=
  if parser.diagnostics.any (·.range.start.line = range.start.line) then parser
  else { parser with diagnostics := parser.diagnostics ++ [.warning message range] }

/-- The range from the first of some tokens to the last, or else the empty one at `position`. -/
def rangeOf (tokens : List Token) (position : Position) : Range :=
  match tokens.head?, tokens.getLast? with
  | some first, some last => ⟨first.range.start, last.range.stop⟩
  | _, _ => .point position

/-- Give up on a construct: skip to where reading can resume and report the tokens that were
offending, the ones `taken` before included. The tokens `lead` of the construct before the problem
are kept in the node but not reported. -/
def fail (parser : Parser) (message : String) (lead taken : List Token) : Taken Node :=
  let passed := parser.takeWhile (!·.kind.resumes)
  let skipped := taken ++ passed.item
  let range := rangeOf skipped passed.rest.current.range.start
  ⟨.error message range (lead ++ skipped), passed.rest.report message range⟩

end Parser

end LineScript
