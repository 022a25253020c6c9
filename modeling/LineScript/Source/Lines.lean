import LineScript.Source.Lexeme
import LineScript.Fault
import LineScript.Slot

namespace LineScript

/-- Cut a text at its line breaks, which are a line feed or a carriage return and a line feed. There
is always a first line. -/
def splitLines : List Char → List (List Char)
  | [] => [[]]
  | '\r' :: '\n' :: rest => [] :: splitLines rest
  | '\n' :: rest => [] :: splitLines rest
  | c :: rest => (splitLines rest).modifyHead (c :: ·)

/-- The lines of a text. -/
def linesOf (source : String) : List String :=
  (splitLines source.toList).map String.ofList

/-- Place the lexemes of line `line` from column `column` on, numbered from `id`. -/
def placeLexemes (line : Nat) : Nat → Nat → List Lexeme → List Token
  | _, _, [] => []
  | id, column, lexeme :: rest =>
    let start := column + lexeme.gap.length
    let text := String.ofList lexeme.text
    ⟨id, lexeme.kind, text, .ofText ⟨line, start⟩ text, String.ofList lexeme.gap⟩ ::
      placeLexemes line (id + 1) (start + lexeme.text.length) rest

/-- The tokens of one line. A line with any character ends in an end-of-line token. -/
def lineTokens (id line : Nat) (text : List Char) : List Token :=
  match text with
  | [] => []
  | _ =>
    let scanned := scanLine text
    placeLexemes line id 0 scanned.1 ++
      [⟨id + scanned.1.length, .endOfLine, "", .point ⟨line, text.length⟩, String.ofList scanned.2⟩]

/-- The tokens of the lines from number `line` on, numbered from `id`, without the end of the
file. -/
def linesTokens : Nat → Nat → List (List Char) → List Token
  | _, _, [] => []
  | id, line, text :: rest =>
    let here := lineTokens id line text
    here ++ linesTokens (id + here.length) (line + 1) rest

/-- The tokens of a text. The last one is the end of the file, at the end of the last line. -/
def tokenize (source : String) : List Token :=
  let lines := splitLines source.toList
  let tokens := linesTokens 0 0 lines
  tokens ++ [⟨tokens.length, .endOfFile, "",
    .point ⟨(lines.length - 1 : Nat), (lines.getLast?.getD []).length⟩, ""⟩]

/-- Add one token's gap and text to its line. -/
def rebuildWith (lines : List String) (token : Token) : Except Fault (List String) :=
  if token.kind = .endOfFile then .ok lines
  else match slot? lines.length token.line with
    | none => .error .indexOutside
    | some place => .ok (lines.modify place (· ++ (token.gap ++ token.text)))

/-- Write tokens back into `count` lines. -/
def rebuildLines (tokens : List Token) (count : Int) : Except Fault (List String) :=
  tokens.foldlM rebuildWith (List.replicate count.toNat "")

end LineScript
