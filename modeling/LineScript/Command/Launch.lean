import LineScript.Command.Report
import LineScript.Editor.Session

namespace LineScript

/-- How the server is started. -/
inductive Start where
  | standardStreams
  | tcp (host : String) (port : Int)
  deriving DecidableEq

namespace Launch

/-- Trouble that ends a launch without an exit status: its log cannot be opened, or the server cannot be
loaded. -/
inductive Escape (Failure : Type) where
  | log (failure : Failure)
  | server (error : SettingError)
  deriving DecidableEq

end Launch

/-- What a launch leaves behind: its report, the server that was loaded, how that was started, and the
files that were made. -/
structure LaunchReport (Failure : Type) where
  report : Report (Launch.Escape Failure)
  server : Option Session
  started : Option Start
  made : List String

namespace Launch

def program : String := "curage-ls"

def spec : CommandSpec where
  options := [⟨["-h", "--help"], .help⟩, ⟨["--tcp"], .flag⟩, ⟨["--host"], .text⟩,
    ⟨["--port"], .integer⟩, ⟨["--log-level"], .text⟩, ⟨["--log-file"], .text⟩]
  wantsWords := false

def usage : String :=
  "usage: curage-ls [-h] [--tcp] [--host HOST] [--port PORT]\n" ++
  "                 [--log-level LOG_LEVEL] [--log-file LOG_FILE]\n"

def details : String :=
  "curage language server\n" ++
  "\n" ++
  "options:\n" ++
  "  -h, --help            show this help message and exit\n" ++
  "  --tcp                 listen on TCP instead of stdio\n" ++
  "  --host HOST\n" ++
  "  --port PORT\n" ++
  "  --log-level LOG_LEVEL\n" ++
  "  --log-file LOG_FILE   log here instead of stderr\n"

/-- The text of an option, where an empty one counts as not given. -/
def textOr (given : Option String) (default : String) : String :=
  match given with
  | none => default
  | some text => if text.isEmpty then default else text

/-- The number of an option, where zero counts as not given. -/
def numberOr (given : Option Int) (default : Int) : Int :=
  match given with
  | none => default
  | some number => if number = 0 then default else number

/-- Where to listen: the options, else the settings. -/
def startOf (given : Given) (address : String × Int) : Start :=
  if given.hasFlag "--tcp" then
    .tcp (textOr (given.text? "--host") address.1) (numberOr (given.integer? "--port") address.2)
  else .standardStreams

/-- The settings of a launch: the level of its log and the address. -/
def settings (given : Given) (vars : Variables) :
    Except SettingError (LevelName × String × Int) := do
  let name ← Settings.logLevel vars (given.text? "--log-level")
  let address ← Settings.address vars
  return (name, address)

/-- The server: the one that is there already, else a new one with the scoping of the settings. -/
def load (loaded : Option Session) (vars : Variables) : Except SettingError Session :=
  match loaded with
  | some server => .ok server
  | none => Session.start none vars

section Run

variable {Failure : Type} (openLog : String → Except Failure (List String))

/-- Open the log of a launch if it goes to a file: the files made by that. -/
def openLogOf (given : Given) : Except Failure (List String) :=
  let path := textOr (given.text? "--log-file") ""
  if path.isEmpty then .ok [] else openLog path

/-- Launch the server. -/
def run (loaded : Option Session) (arguments : List String) (vars : Variables) :
    LaunchReport Failure :=
  let refuse (error : UsageError) : LaunchReport Failure :=
    ⟨.usageError program usage Report.quietLevel error, none, none, []⟩
  match spec.read arguments with
  | .error error => refuse error
  | .ok .help => ⟨.help usage details, none, none, []⟩
  | .ok (.given given) =>
    match settings given vars with
    | .error error => refuse (.other error.message)
    | .ok (name, address) =>
      match openLogOf openLog given with
      | .error failure => ⟨⟨.escape (.log failure), Report.quietLevel, "", ""⟩, none, none, []⟩
      | .ok made =>
        match load loaded vars with
        | .error error => ⟨⟨.escape (.server error), name.level, "", ""⟩, none, none, made⟩
        | .ok server => ⟨⟨.exit 0, name.level, "", ""⟩, some server, some (startOf given address), made⟩

end Run

end Launch

end LineScript
