namespace LineScript

inductive Level where
  | critical
  | error
  | warning
  | info
  | debug
  | unset
  deriving DecidableEq

namespace Level

def label : Level → String
  | critical => "CRITICAL"
  | error => "ERROR"
  | warning => "WARNING"
  | info => "INFO"
  | debug => "DEBUG"
  | unset => "NOTSET"

def weight : Level → Nat
  | critical => 50
  | error => 40
  | warning => 30
  | info => 20
  | debug => 10
  | unset => 0

end Level

/-- One message of the log. -/
structure LogRecord where
  level : Level
  logger : String
  message : String
  deriving DecidableEq

namespace LogRecord

def line (record : LogRecord) : String :=
  record.level.label ++ ":" ++ record.logger ++ ":" ++ record.message

/-- What reaches a log that is open from `threshold` on. -/
def written (threshold : Level) (records : List LogRecord) : String :=
  String.join ((records.filter (threshold.weight ≤ ·.level.weight)).map (·.line ++ "\n"))

end LogRecord

/-- The name of a level, as settings spell it. -/
structure LevelName where
  name : String
  level : Level
  deriving DecidableEq

namespace LevelName

def all : List LevelName :=
  [⟨"CRITICAL", .critical⟩, ⟨"FATAL", .critical⟩, ⟨"ERROR", .error⟩, ⟨"WARN", .warning⟩,
    ⟨"WARNING", .warning⟩, ⟨"INFO", .info⟩, ⟨"DEBUG", .debug⟩, ⟨"NOTSET", .unset⟩]

def ofName? (name : String) : Option LevelName := all.find? (·.name = name)

end LevelName

/-- How a truth value is written in messages. -/
def flagText (flag : Bool) : String := if flag then "True" else "False"

end LineScript
