import LineScript.Text.Integer

namespace LineScript

/-- What an option takes. -/
inductive OptionKind where
  | help
  | flag
  | text
  | integer
  deriving DecidableEq

/-- An option of a command line, under all its names. -/
structure OptionSpec where
  names : List String
  kind : OptionKind
  deriving DecidableEq

namespace OptionSpec

/-- How messages call an option. -/
def shown (spec : OptionSpec) : String := "/".intercalate spec.names

def takesValue (spec : OptionSpec) : Bool := spec.kind = .text ∨ spec.kind = .integer

end OptionSpec

/-- What a command line accepts: its options, and whether it wants words as well. -/
structure CommandSpec where
  options : List OptionSpec
  wantsWords : Bool

inductive UsageError where
  | ambiguous (option : String) (candidates : List String)
  | valueMissing (option : String)
  | valueIgnored (option value : String)
  | notInteger (option value : String)
  | wordsMissing
  | unrecognized (arguments : List String)
  /-- Trouble found after the command line itself was read. -/
  | other (message : String)
  deriving DecidableEq

def UsageError.message : UsageError → String
  | ambiguous option candidates =>
    "ambiguous option: " ++ option ++ " could match " ++ ", ".intercalate candidates
  | valueMissing option => "argument " ++ option ++ ": expected one argument"
  | valueIgnored option value =>
    "argument " ++ option ++ ": ignored explicit argument " ++ quoted value
  | notInteger option value => "argument " ++ option ++ ": invalid int value: " ++ quoted value
  | wordsMissing => "the following arguments are required: files"
  | unrecognized arguments => "unrecognized arguments: " ++ " ".intercalate arguments
  | other message => message

/-- An argument by its role. -/
inductive Argument where
  | word (text : String)
  /-- The mark that no options follow. -/
  | mark
  /-- An option, with the value attached to it if there is one: behind an equals sign, or run
  together with a short name. -/
  | option (spec : OptionSpec) (name : String) (attached : Option String)
  | unknownOption (text : String)
  deriving DecidableEq

namespace Argument

def isOption : Argument → Bool
  | option _ _ _ | unknownOption _ => true
  | _ => false

def isWord : Argument → Bool
  | word _ => true
  | _ => false

/-- A word or mark as it was written. -/
def text : Argument → String
  | word given => given
  | mark => "--"
  | option _ name _ => name
  | unknownOption given => given

end Argument

/-- A minus sign and digits, with at most one point before the last of them. One line feed may
follow. -/
def looksNegative (text : List Char) : Bool :=
  let isDigit (c : Char) : Bool := (digitValue? c).isSome
  let body := if text.getLast? = some '\n' then text.dropLast else text
  match body with
  | '-' :: rest =>
    match rest.dropWhile isDigit with
    | [] => !rest.isEmpty
    | '.' :: decimals => !decimals.isEmpty && decimals.all isDigit
    | _ => false
  | _ => false

/-- A text up to its first equals sign, and what follows that. -/
def cutAtEquals (text : List Char) : List Char × Option (List Char) :=
  (text.takeWhile (· ≠ '='), match text.dropWhile (· ≠ '=') with
    | [] => none
    | _ :: rest => some rest)

namespace CommandSpec

/-- Every name with its option, in the order of declaration. -/
def table (spec : CommandSpec) : List (String × OptionSpec) :=
  spec.options.flatMap fun option => option.names.map (·, option)

def find? (spec : CommandSpec) (name : String) : Option OptionSpec :=
  (spec.table.find? (·.1 = name)).map (·.2)

/-- The options that a text may mean when no option has that very name: for a long one those it
begins, for a short one the option of its first letter with the rest as its value. -/
def candidates (spec : CommandSpec) (text : List Char) : List Argument :=
  match text with
  | '-' :: '-' :: _ =>
    let cut := cutAtEquals text
    (spec.table.filter fun entry => cut.1.isPrefixOf entry.1.toList).map fun entry =>
      .option entry.2 entry.1 (cut.2.map String.ofList)
  | _ =>
    (spec.table.filter (·.1 = String.ofList (text.take 2))).map fun entry =>
      .option entry.2 entry.1 (some (String.ofList (text.drop 2)))

/-- Find the role of one argument. -/
def classify (spec : CommandSpec) (argument : String) : Except UsageError Argument :=
  let text := argument.toList
  let cut := cutAtEquals text
  let fallback : Argument :=
    if looksNegative text || ' ' ∈ text then .word argument else .unknownOption argument
  if text.head? ≠ some '-' then .ok (.word argument)
  else match spec.find? argument with
    | some option => .ok (.option option argument none)
    | none =>
      if text.length = 1 then .ok (.word argument)
      else match cut.2, spec.find? (String.ofList cut.1) with
        | some value, some option =>
          .ok (.option option (String.ofList cut.1) (some (String.ofList value)))
        | _, _ =>
          match spec.candidates text with
          | [] => .ok fallback
          | [single] => .ok single
          | several => .error (.ambiguous argument (several.map Argument.text))

/-- Find the roles of all arguments. Behind the mark there are words only. -/
def classifyAll (spec : CommandSpec) : List String → Except UsageError (List Argument)
  | [] => .ok []
  | argument :: rest =>
    if argument = "--" then .ok (.mark :: rest.map .word)
    else do return (← spec.classify argument) :: (← spec.classifyAll rest)

end CommandSpec

/-- The value of an option that was given. -/
inductive OptionValue where
  | flag
  /-- The mark stood where the value belongs, so there is none. -/
  | withdrawn
  | text (given : String)
  | integer (number : Int)
  deriving DecidableEq

/-- What a command line was found to hold. -/
structure Given where
  options : List (OptionSpec × OptionValue)
  words : Option (List String)
  extras : List String

/-- A command line asks for help or holds arguments. -/
inductive Invocation where
  | help
  | given (given : Given)

namespace Given

def empty : Given := ⟨[], none, []⟩

def giveValue (given : Given) (spec : OptionSpec) (value : String) : Except UsageError Given :=
  match spec.kind with
  | .integer =>
    match readInteger value with
    | .ok number => .ok { given with options := given.options ++ [(spec, .integer number)] }
    | .error _ => .error (.notInteger spec.shown value)
  | _ => .ok { given with options := given.options ++ [(spec, .text value)] }

/-- Take a value that is attached to its option. -/
def giveAttached (given : Given) (spec : OptionSpec) (value : String) : Except UsageError Given :=
  if value = "--" then .ok { given with options := given.options ++ [(spec, .withdrawn)] }
  else given.giveValue spec value

def giveFlag (given : Given) (spec : OptionSpec) : Given :=
  { given with options := given.options ++ [(spec, .flag)] }

def giveExtras (given : Given) (arguments : List String) : Given :=
  { given with extras := given.extras ++ arguments }

/-- A run of words is the words of the command line if it is the first such run. -/
def giveRun (given : Given) (wantsWords : Bool) (run : List Argument) : Given :=
  if wantsWords && given.words.isNone && run.any Argument.isWord then
    { given with words := some ((run.erase .mark).map Argument.text) }
  else given.giveExtras (run.map Argument.text)

/-- The last value of the option with a given name. -/
def value? (given : Given) (name : String) : Option OptionValue :=
  (given.options.reverse.find? (name ∈ ·.1.names)).map (·.2)

def hasFlag (given : Given) (name : String) : Bool := (given.value? name).isSome

def text? (given : Given) (name : String) : Option String :=
  match given.value? name with
  | some (.text text) => some text
  | _ => none

def integer? (given : Given) (name : String) : Option Int :=
  match given.value? name with
  | some (.integer number) => some number
  | _ => none

end Given

namespace CommandSpec

/-- The options that letters attached to a short option stand for. Short options take no value, so
the first letter that is no option is refused with all that follow it. -/
def readLetters (spec : CommandSpec) (option : OptionSpec) :
    List Char → Except UsageError (List OptionSpec)
  | [] => .ok [option]
  | letter :: rest =>
    match spec.find? (String.ofList ['-', letter]) with
    | none => .error (.valueIgnored option.shown (String.ofList (letter :: rest)))
    | some next => do return option :: (← spec.readLetters next rest)

/-- The options that an option without a value and what is attached to it stand for. -/
def readAttached (spec : CommandSpec) (option : OptionSpec) (name value : String) :
    Except UsageError (List OptionSpec) :=
  if ['-', '-'].isPrefixOf name.toList || value.isEmpty then .error (.valueIgnored option.shown value)
  else spec.readLetters option value.toList

/-- Act on the arguments from left to right. Help acts as soon as it is met. -/
def act (spec : CommandSpec) (given : Given) : List Argument → Except UsageError Invocation
  | [] => .ok (.given given)
  | .unknownOption text :: rest => spec.act (given.giveExtras [text]) rest
  | .option option name (some value) :: rest =>
    if option.takesValue then do spec.act (← given.giveAttached option value) rest
    else do
      let options ← spec.readAttached option name value
      if options.any (·.kind = .help) then return .help
      else spec.act (options.foldl Given.giveFlag given) rest
  | .option option _ none :: rest =>
    if option.takesValue then
      match rest with
      | .word value :: rest => do spec.act (← given.giveValue option value) rest
      | _ => .error (.valueMissing option.shown)
    else if option.kind = .help then .ok .help
    else spec.act (given.giveFlag option) rest
  | argument :: rest =>
    let run := argument :: rest.takeWhile (!·.isOption)
    have : (rest.dropWhile (!·.isOption)).length ≤ rest.length :=
      (List.dropWhile_sublist _).length_le
    spec.act (given.giveRun spec.wantsWords run) (rest.dropWhile (!·.isOption))
termination_by arguments => arguments.length

/-- Read a command line. Missing words are reported before arguments that nothing recognizes. -/
def read (spec : CommandSpec) (arguments : List String) : Except UsageError Invocation := do
  match ← spec.act .empty (← spec.classifyAll arguments) with
  | .help => return .help
  | .given given =>
    if spec.wantsWords && given.words.isNone then throw .wordsMissing
    else if given.extras.isEmpty then return .given given
    else throw (.unrecognized given.extras)

end CommandSpec

end LineScript
