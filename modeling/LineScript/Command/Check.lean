import LineScript.Command.Folder
import LineScript.Command.Report
import LineScript.Document.Model

namespace LineScript

namespace Check

def program : String := "curage-check"

def spec : CommandSpec where
  options := [⟨["-h", "--help"], .help⟩, ⟨["--block-scoping"], .flag⟩, ⟨["--log-level"], .text⟩]
  wantsWords := true

def usage : String :=
  "usage: curage-check [-h] [--block-scoping] [--log-level LOG_LEVEL]\n" ++
  "                    files [files ...]\n"

def details : String :=
  "Command-line checker: report curage diagnostics for files.\n" ++
  "\n" ++
  "positional arguments:\n" ++
  "  files\n" ++
  "\n" ++
  "options:\n" ++
  "  -h, --help            show this help message and exit\n" ++
  "  --block-scoping       keep if/while bindings local to their block\n" ++
  "  --log-level LOG_LEVEL\n"

/-- What the analysis of a text tells the log. -/
def trace (text : String) (model : Model) : List LogRecord :=
  let statements := match model.root with
    | .program statements _ => statements.length
    | _ => 0
  [⟨.debug, "curage.reader.lexer", "lexed " ++ toString model.tokens.length ++ " tokens from " ++
      toString text.length ++ " characters"⟩,
    ⟨.debug, "curage.reader.parser", "parsed " ++ toString statements ++ " statements with " ++
      toString model.shapeDiagnostics.length ++ " syntax diagnostics"⟩,
    ⟨.debug, "curage.analysis.binder", "bound " ++ toString model.table.size ++ " symbols with " ++
      toString model.nameDiagnostics.length ++ " semantic diagnostics"⟩]

/-- The line that reports a diagnostic. Lines and columns are counted from one here. -/
def diagnosticLine (path : String) (diagnostic : Diagnostic) : String :=
  path ++ ":" ++ toString (diagnostic.range.start.line + 1) ++ ":" ++
    toString (diagnostic.range.start.column + 1) ++ ": " ++ lowerText diagnostic.severity.label ++
    ": " ++ diagnostic.message ++ "\n"

/-- The diagnostics of a model by their starts. -/
def inOrder (model : Model) : List Diagnostic :=
  model.diagnostics.mergeSort (·.range.start ≤ ·.range.start)

/-- What the run over the files has come to. -/
structure Tally where
  status : Nat
  output : String
  logs : List LogRecord

/-- Trouble with a file that ends a run without an exit status. -/
inductive Escape where
  | notText
  | nullInPath
  deriving DecidableEq

/-- Why the run over the files stops early. -/
inductive Stop where
  | escape (escape : Escape)
  | fault (fault : Fault)

/-- Check one file that was read. -/
def checkText (blockScoping : Bool) (tally : Tally) (path text : String) : Except Fault Tally := do
  let text := String.ofList (unifyBreaks text.toList)
  let model ← analyze text blockScoping
  let diagnostics := inOrder model
  return {
    status := if diagnostics.isEmpty then tally.status else max tally.status 1
    output := tally.output ++ String.join (diagnostics.map (diagnosticLine path))
    logs := tally.logs ++ trace text model }

section Run

variable {Failure : Type} [TellsFailure Failure]

/-- Check the files in turn. A file that cannot be opened is logged and the rest goes on; one whose
bytes are no text ends the run. -/
def checkFiles (blockScoping : Bool) (openFile : String → Except Failure Contents)
    (tally : Tally) : List String → Tally × Option Stop
  | [] => (tally, none)
  | word :: rest =>
    let path := plainPath word
    if '\x00' ∈ path.toList then (tally, some (.escape .nullInPath))
    else match openFile path with
      | .error failure =>
        let record : LogRecord := ⟨.error, "curage.__main__",
          "cannot read " ++ path ++ ": " ++ TellsFailure.message failure path⟩
        checkFiles blockScoping openFile
          { tally with status := 2, logs := tally.logs ++ [record] } rest
      | .ok contents =>
        match contents.decode? with
        | none => (tally, some (.escape .notText))
        | some text =>
          match checkText blockScoping tally path text with
          | .error fault => (tally, some (.fault fault))
          | .ok tally => checkFiles blockScoping openFile tally rest

/-- Whether bindings end with their block: the option if it is given, else the setting. -/
def scoping (given : Given) (vars : Variables) : Except SettingError Bool :=
  if given.hasFlag "--block-scoping" then .ok true else Settings.blockScoping vars

/-- Run the checker. -/
def run (arguments : List String) (vars : Variables)
    (openFile : String → Except Failure Contents) : Except Fault (Report Escape) :=
  let refuse (level : Level) (error : UsageError) : Except Fault (Report Escape) :=
    .ok (.usageError program usage level error)
  match spec.read arguments with
  | .error error => refuse Report.quietLevel error
  | .ok .help => .ok (.help usage details)
  | .ok (.given given) =>
    match Settings.logLevel vars (given.text? "--log-level") with
    | .error error => refuse Report.quietLevel (.other error.message)
    | .ok name =>
      match scoping given vars with
      | .error error => refuse name.level (.other error.message)
      | .ok blockScoping =>
        match checkFiles blockScoping openFile ⟨0, "", []⟩ (given.words.getD []) with
        | (tally, none) =>
          .ok ⟨.exit tally.status, name.level, tally.output, LogRecord.written name.level tally.logs⟩
        | (tally, some (.escape escape)) =>
          .ok ⟨.escape escape, name.level, tally.output, LogRecord.written name.level tally.logs⟩
        | (_, some (.fault fault)) => .error fault

end Run

/-- The files that a command line names. -/
def files (arguments : List String) : List String :=
  match spec.read arguments with
  | .ok (.given given) => (given.words.getD []).map plainPath
  | _ => []

end Check

end LineScript
