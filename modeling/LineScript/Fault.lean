import LineScript.Source.Token

namespace LineScript

/-- Misuse of a structure by its caller. Problems in a document are diagnostics, never faults. -/
inductive Fault where
  /-- An index that names no member of its sequence. -/
  | indexOutside
  /-- The parts of a node of no known form. -/
  | noParts
  /-- A node that name resolution does not know. -/
  | unknownNode (label : String)
  | cannotDeclare (text : String) (kind : TokenKind)
  | cannotRefer (text : String) (kind : TokenKind)
  | cannotDefine (shown : String)
  | outermostFrame
  | notDefined (name : String)
  | unsupportedOperand (sign operand : String)
  deriving DecidableEq

/-- What is said of a name that no frame binds. -/
def undefinedMessage (name : String) : String :=
  "'" ++ name ++ "' is not defined."

def Fault.message : Fault → String
  | indexOutside => "index out of range"
  | noParts => "the parts of this node are not known"
  | unknownNode label => "Unknown syntax node: " ++ label
  | cannotDeclare text kind => "Cannot declare " ++ quoted text ++ " (" ++ kind.label ++ ") as a name"
  | cannotRefer text kind => "Cannot refer through " ++ quoted text ++ " (" ++ kind.label ++ ")"
  | cannotDefine shown => "Cannot define " ++ shown ++ " as a name"
  | outermostFrame => "Cannot merge the outermost frame"
  | notDefined name => undefinedMessage name
  | unsupportedOperand sign operand =>
    "unsupported operand type(s) for " ++ sign ++ ": 'Position' and '" ++ operand ++ "'"

end LineScript
