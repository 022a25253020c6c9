import LineScript.Fault

namespace LineScript

/-- What a caller may hand to position arithmetic. Only a position is accepted. -/
inductive Operand where
  | position (position : Position)
  | other (typeName : String)
  deriving DecidableEq

namespace Operand

def addTo (base : Position) : Operand → Except Fault Position
  | position offset => .ok (base + offset)
  | other typeName => .error (.unsupportedOperand "+" typeName)

def subFrom (base : Position) : Operand → Except Fault Position
  | position origin => .ok (base - origin)
  | other typeName => .error (.unsupportedOperand "-" typeName)

end Operand

end LineScript
