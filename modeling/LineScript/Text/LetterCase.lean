namespace LineScript

/-- The upper-case form of a character wherever that form is plain ASCII. The only other
characters with such a form are the sharp s, the dotless i, the long s and the Latin ligatures.
Every other character stands for itself, which no ASCII word can tell apart. -/
def upperAscii (c : Char) : List Char :=
  match c.toNat with
  | 0xdf => ['S', 'S']
  | 0x131 => ['I']
  | 0x17f => ['S']
  | 0xfb00 => ['F', 'F']
  | 0xfb01 => ['F', 'I']
  | 0xfb02 => ['F', 'L']
  | 0xfb03 => ['F', 'F', 'I']
  | 0xfb04 => ['F', 'F', 'L']
  | 0xfb05 => ['S', 'T']
  | 0xfb06 => ['S', 'T']
  | _ => [c.toUpper]

/-- The lower-case form of a character wherever that form is plain ASCII. Beside the ASCII
letters this is the case of the Kelvin sign only. -/
def lowerAscii (c : Char) : Char :=
  if c.toNat == 0x212a then 'k' else c.toLower

def upperText (text : String) : String :=
  String.ofList (text.toList.flatMap upperAscii)

def lowerText (text : String) : String :=
  String.ofList (text.toList.map lowerAscii)

end LineScript
