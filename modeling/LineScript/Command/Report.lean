import LineScript.Command.Options
import LineScript.Settings

namespace LineScript

/-- How a run ends: with an exit status, or by some trouble without one. -/
inductive Ending (Trouble : Type) where
  | exit (status : Nat)
  | escape (cause : Trouble)
  deriving DecidableEq

/-- What a run of a command leaves behind: how it ended, the level of its log, and its output. -/
structure Report (Trouble : Type) where
  ending : Ending Trouble
  level : Level
  output : String
  errors : String
  deriving DecidableEq

namespace Report

variable {Trouble : Type}

/-- The level of a log that was never set up. -/
def quietLevel : Level := .warning

/-- The report of a run that answered with a help text. -/
def help (usage details : String) : Report Trouble :=
  ⟨.exit 0, quietLevel, usage ++ "\n" ++ details, ""⟩

/-- The report of a run that stopped at its command line. -/
def usageError (program usage : String) (level : Level) (error : UsageError) : Report Trouble :=
  ⟨.exit 2, level, "", usage ++ program ++ ": error: " ++ error.message ++ "\n"⟩

end Report

end LineScript
