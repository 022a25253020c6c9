import LineScript.Source.Position

namespace LineScript

inductive Severity where
  | error
  | warning
  | information
  | hint
  deriving DecidableEq

namespace Severity

def label : Severity → String
  | error => "ERROR"
  | warning => "WARNING"
  | information => "INFORMATION"
  | hint => "HINT"

/-- The number that editors know a severity by. -/
def number : Severity → Nat
  | error => 1
  | warning => 2
  | information => 3
  | hint => 4

end Severity

/-- Advice about a stretch of a document. It never stops the analysis. -/
structure Diagnostic where
  message : String
  range : Range
  severity : Severity
  source : String
  deriving DecidableEq

/-- A warning of this library. -/
def Diagnostic.warning (message : String) (range : Range) : Diagnostic :=
  ⟨message, range, .warning, "curage"⟩

end LineScript
