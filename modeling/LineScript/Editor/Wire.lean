import LineScript.Diagnostic
import LineScript.Text.Units

namespace LineScript

/-- A position as editors count it: lines, and units within the line. -/
structure WirePosition where
  line : Nat
  character : Nat
  deriving DecidableEq

structure WireRange where
  start : WirePosition
  stop : WirePosition
  deriving DecidableEq

/-- How an editor counts: from a position in some lines to its own one, and back. -/
structure Codec where
  ofPosition : List String → Position → WirePosition
  toPosition : List String → WirePosition → Position

def Codec.ofRange (codec : Codec) (lines : List String) (range : Range) : WireRange :=
  ⟨codec.ofPosition lines range.start, codec.ofPosition lines range.stop⟩

/-- A diagnostic as it is sent to an editor. -/
structure WireDiagnostic where
  range : WireRange
  message : String
  severity : Nat
  source : String
  deriving DecidableEq

def WireDiagnostic.ofDiagnostic (codec : Codec) (lines : List String) (diagnostic : Diagnostic) :
    WireDiagnostic :=
  ⟨codec.ofRange lines diagnostic.range, diagnostic.message, diagnostic.severity.number,
    diagnostic.source⟩

namespace Utf16

/-- A line with every carriage return and line feed as one line feed. -/
def joinBreaks : List Char → List Char
  | [] => []
  | '\r' :: '\n' :: rest => '\n' :: joinBreaks rest
  | c :: rest => c :: joinBreaks rest

/-- The column that `character` units lead to. The middle of a pair rounds up, and an offset beyond
the line counts as one unit less than the line has. -/
def columnAt (line : List Char) (character : Nat) : Nat :=
  let total := units line
  charsReaching (if total < character then total - 1 else character) line

/-- A line behind the text starts there. -/
def ofPosition (lines : List String) (place : Position) : WirePosition :=
  match lines[place.line.toNat]? with
  | some line => ⟨place.line.toNat, units (line.toList.take place.column.toNat)⟩
  | none => ⟨lines.length, 0⟩

def toPosition (lines : List String) (wire : WirePosition) : Position :=
  match lines[wire.line]? with
  | some line => ⟨wire.line, columnAt (joinBreaks line.toList) wire.character⟩
  | none =>
    match lines.getLast? with
    | none => ⟨0, 0⟩
    | some last => ⟨(lines.length - 1 : Nat), units last.toList⟩

/-- The codec of editors that count UTF-16 units. -/
def codec : Codec := ⟨ofPosition, toPosition⟩

end Utf16

end LineScript
