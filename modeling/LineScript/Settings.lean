import LineScript.Log
import LineScript.Text.Integer
import LineScript.Text.LetterCase

namespace LineScript

/-- Why the text of a setting is refused. -/
inductive BadValue where
  | flag
  | level
  | integer (problem : IntegerProblem)
  | port
  deriving DecidableEq

def trueWords : List String := ["1", "true", "yes", "on"]

def falseWords : List String := ["0", "false", "no", "off"]

def BadValue.message : BadValue → String
  | flag =>
    let words := (trueWords ++ falseWords).mergeSort (· ≤ ·)
    "expected one of [" ++ ", ".intercalate (words.map quoted) ++ "]"
  | level => "not a logging level name"
  | integer problem => problem.message
  | port => "port out of range"

/-- A setting that cannot be used. -/
inductive SettingError where
  | inVariable (name raw : String) (cause : BadValue)
  | inLevelOption (raw : String) (cause : BadValue)
  deriving DecidableEq

def SettingError.message : SettingError → String
  | inVariable name raw cause => name ++ "=" ++ quoted raw ++ ": " ++ cause.message
  | inLevelOption raw cause => "--log-level " ++ quoted raw ++ ": " ++ cause.message

def readFlag (raw : String) : Except BadValue Bool :=
  let word := lowerText raw
  if word ∈ trueWords then .ok true
  else if word ∈ falseWords then .ok false
  else .error .flag

def readLevel (raw : String) : Except BadValue LevelName :=
  match LevelName.ofName? (upperText raw) with
  | none => .error .level
  | some name => .ok name

/-- Ports that can be listened on. -/
def isPort (port : Int) : Bool := 0 < port ∧ port < 65536

def readPort (raw : String) : Except BadValue Int :=
  match readInteger raw with
  | .error problem => .error (.integer problem)
  | .ok port => if isPort port then .ok port else .error .port

/-- Environment variables and their texts. -/
structure Variables where
  texts : List (String × String)

def Variables.get? (vars : Variables) (name : String) : Option String :=
  (vars.texts.find? (·.1 = name)).map (·.2)

/-- Read a variable without the blanks around it. One that is unset or blank has its default. -/
def Variables.read {α : Type} (vars : Variables) (name : String) (default : α)
    (convert : String → Except BadValue α) : Except SettingError α :=
  match vars.get? name with
  | none => .ok default
  | some raw =>
    if (trimBlanks raw).isEmpty then .ok default
    else match convert (trimBlanks raw) with
      | .ok value => .ok value
      | .error cause => .error (.inVariable name raw cause)

namespace Settings

def defaultLevel : LevelName := ⟨"WARNING", .warning⟩

/-- The level of the log: the option if it is given and not empty, else the variable. -/
def logLevel (vars : Variables) (given : Option String) : Except SettingError LevelName :=
  let given := given.getD ""
  if given.isEmpty then vars.read "CURAGE_LOG_LEVEL" defaultLevel readLevel
  else match readLevel given with
    | .ok name => .ok name
    | .error cause => .error (.inLevelOption given cause)

/-- Whether bindings end with their block. -/
def blockScoping (vars : Variables) : Except SettingError Bool :=
  vars.read "CURAGE_BLOCK_SCOPING" false readFlag

/-- Where the server listens. -/
def address (vars : Variables) : Except SettingError (String × Int) := do
  let host ← vars.read "CURAGE_LS_HOST" "127.0.0.1" .ok
  let port ← vars.read "CURAGE_LS_PORT" 2087 readPort
  return (host, port)

end Settings

end LineScript
