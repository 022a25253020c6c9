import LineScript.Source.Token

namespace LineScript

/-- A token without its place: the spaces before it, its kind and its characters. -/
structure Lexeme where
  gap : List Char
  kind : TokenKind
  text : List Char
  deriving DecidableEq

def isSpace (c : Char) : Bool := c = ' '

def isNameStart (c : Char) : Bool := c.isAlpha || c = '_'

def isNameChar (c : Char) : Bool := isNameStart c || c.isDigit

def isOperatorChar (c : Char) : Bool :=
  c ∈ ['-', '+', '*', '/', '%', '<', '>', '=', '!', '&', '|']

/-- A sign that belongs to the integer behind it. -/
def isSignOf (c : Char) (rest : List Char) : Bool :=
  (c = '+' || c = '-') && (rest.head?.any Char.isDigit)

/-- Read one token off a text that starts with `c`: its kind, its characters, and what follows. -/
def scanToken (c : Char) (rest : List Char) : TokenKind × List Char × List Char :=
  if c.isDigit || isSignOf c rest then
    (.integer, c :: rest.takeWhile Char.isDigit, rest.dropWhile Char.isDigit)
  else if isNameStart c then
    (.ofWord (String.ofList (c :: rest.takeWhile isNameChar)), c :: rest.takeWhile isNameChar,
      rest.dropWhile isNameChar)
  else if c = '(' then (.leftParen, [c], rest)
  else if c = ')' then (.rightParen, [c], rest)
  else if isOperatorChar c then
    (.operator, c :: rest.takeWhile isOperatorChar, rest.dropWhile isOperatorChar)
  else (.invalid, [c], rest)

theorem scanToken_rest_length_le (c : Char) (rest : List Char) :
    (scanToken c rest).2.2.length ≤ rest.length := by
  have shorter (keep : Char → Bool) : (rest.dropWhile keep).length ≤ rest.length :=
    (List.dropWhile_sublist keep).length_le
  unfold scanToken
  split
  · exact shorter _
  split
  · exact shorter _
  split
  · exact Nat.le_refl _
  split
  · exact Nat.le_refl _
  split
  · exact shorter _
  · exact Nat.le_refl _

theorem rest_length_lt_of_dropWhile {keep : Char → Bool} {line rest : List Char} {c : Char}
    (found : line.dropWhile keep = c :: rest) : rest.length < line.length := by
  have dropped := (List.dropWhile_sublist (l := line) keep).length_le
  simp only [found, List.length_cons] at dropped
  omega

/-- The lexemes of a line, and the spaces after the last of them. -/
def scanLine (line : List Char) : List Lexeme × List Char :=
  match found : line.dropWhile isSpace with
  | [] => ([], line.takeWhile isSpace)
  | c :: rest =>
    let token := scanToken c rest
    have : token.2.2.length < line.length :=
      Nat.lt_of_le_of_lt (scanToken_rest_length_le c rest) (rest_length_lt_of_dropWhile found)
    let after := scanLine token.2.2
    (⟨line.takeWhile isSpace, token.1, token.2.1⟩ :: after.1, after.2)
termination_by line.length

/-- A text that reads as a single name. -/
def isValidName (text : String) : Bool :=
  match text.toList with
  | [] => false
  | c :: rest => isNameStart c && rest.all isNameChar && TokenKind.ofWord text = .name

end LineScript
