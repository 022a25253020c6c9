import LineScript.Source.Position
import LineScript.Text.Quoted

namespace LineScript

inductive TokenKind where
  | integer
  | name
  | letWord
  | setWord
  | endWord
  | ifWord
  | whileWord
  | operator
  | leftParen
  | rightParen
  | endOfLine
  | endOfFile
  | invalid
  deriving DecidableEq

namespace TokenKind

def label : TokenKind → String
  | integer => "INT"
  | name => "NAME"
  | letWord => "LET"
  | setWord => "SET"
  | endWord => "END"
  | ifWord => "IF"
  | whileWord => "WHILE"
  | operator => "OPERATOR"
  | leftParen => "LPAREN"
  | rightParen => "RPAREN"
  | endOfLine => "EOL"
  | endOfFile => "EOF"
  | invalid => "INVALID"

def all : List TokenKind :=
  [integer, name, letWord, setWord, endWord, ifWord, whileWord, operator, leftParen, rightParen,
    endOfLine, endOfFile, invalid]

def ofLabel? (text : String) : Option TokenKind :=
  all.find? (·.label = text)

/-- The word that is read as a keyword of this kind. -/
def keyword? : TokenKind → Option String
  | letWord => some "let"
  | setWord => some "set"
  | endWord => some "end"
  | ifWord => some "if"
  | whileWord => some "while"
  | _ => none

/-- The kind of a word: its keyword, or else a name. -/
def ofWord (word : String) : TokenKind :=
  (all.find? (·.keyword? = some word)).getD name

def isAtomic (kind : TokenKind) : Bool :=
  kind = integer ∨ kind = name

def opensBlock (kind : TokenKind) : Bool :=
  kind = ifWord ∨ kind = whileWord

/-- Where reading takes up again after a problem: a statement keyword or the end of the line or
of the file. -/
def resumes : TokenKind → Bool
  | letWord | setWord | endWord | ifWord | whileWord | endOfLine | endOfFile => true
  | _ => false

end TokenKind

/-- A token with its place. `gap` holds the spaces before it on its line, and `id` is its index in
the token list of its text. -/
structure Token where
  id : Int
  kind : TokenKind
  text : String
  range : Range
  gap : String
  deriving DecidableEq

namespace Token

def isAtomic (token : Token) : Bool := token.kind.isAtomic

def line (token : Token) : Int := token.range.start.line

def describe (token : Token) : String :=
  "Token(" ++ toString token.id ++ ", " ++ token.kind.label ++ ", " ++ quoted token.text ++ ", " ++
    token.range.describe ++ ")"

end Token

end LineScript
