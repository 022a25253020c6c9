import LineScript.Text.Blank
import LineScript.Text.Digit
import LineScript.Text.Quoted

namespace LineScript

/-- Why a text is not read as an integer. -/
inductive IntegerProblem where
  | malformed (text : String)
  | tooLong (digits : Nat)
  deriving DecidableEq

/-- The longest run of digits that is converted. -/
def digitLimit : Nat := 4300

/-- How much of a malformed text is shown. -/
def shownWidth : Nat := 200

def IntegerProblem.message : IntegerProblem → String
  | malformed text => "invalid literal for int() with base 10: " ++ quotedWithin shownWidth text
  | tooLong digits =>
    "Exceeds the limit (" ++ toString digitLimit ++ " digits) for integer string conversion: value has " ++
      toString digits ++ " digits; use sys.set_int_max_str_digits() to increase the limit"

/-- The digits of a number in which single underscores may stand between digits. -/
def digitsOf? : List Char → Option (List Nat)
  | [] => none
  | [c] => (digitValue? c).map ([·])
  | c :: '_' :: rest => do return (← digitValue? c) :: (← digitsOf? rest)
  | c :: rest => do return (← digitValue? c) :: (← digitsOf? rest)

def natOfDigits (digits : List Nat) : Nat :=
  digits.foldl (fun value digit => 10 * value + digit) 0

/-- Whether a character belongs to a run of digits. -/
def inDigitRun (c : Char) : Bool := c = '_' || (digitValue? c).isSome

/-- Read a decimal integer: blanks around it, one sign, and digits of any script. A leading run that
has too many digits is refused for that, whatever follows it. -/
def readInteger (text : String) : Except IntegerProblem Int :=
  let core := trimChars isNumberBlank text.toList
  let (sign, body) : Int × List Char := match core with
    | '-' :: rest => (-1, rest)
    | '+' :: rest => (1, rest)
    | rest => (1, rest)
  match digitsOf? (body.takeWhile inDigitRun) with
  | none => .error (.malformed text)
  | some digits =>
    if digitLimit < digits.length then .error (.tooLong digits.length)
    else if body.all inDigitRun then .ok (sign * natOfDigits digits)
    else .error (.malformed text)

end LineScript
