namespace LineScript

/-- UTF-16 units of a character: two beyond the basic plane. -/
def charUnits (c : Char) : Nat :=
  if 0xffff < c.toNat then 2 else 1

/-- UTF-16 units of a text. -/
def units : List Char → Nat
  | [] => 0
  | c :: rest => charUnits c + units rest

/-- The least number of leading characters that reach `offset` units, or all of them. -/
def charsReaching : Nat → List Char → Nat
  | 0, _ => 0
  | _, [] => 0
  | offset + 1, c :: rest => charsReaching (offset + 1 - charUnits c) rest + 1

end LineScript
