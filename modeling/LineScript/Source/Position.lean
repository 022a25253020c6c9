namespace LineScript

/-- A place in a text: line and column, both counted from zero. -/
structure Position where
  line : Int
  column : Int
  deriving DecidableEq

namespace Position

/-- Move by an offset. An offset that stays on its line shifts the column, any other one starts its
column afresh. -/
def add (base offset : Position) : Position :=
  if offset.line = 0 then ⟨base.line, base.column + offset.column⟩
  else ⟨base.line + offset.line, offset.column⟩

/-- The offset that leads from `origin` to a position. -/
def sub (position origin : Position) : Position :=
  if position.line = origin.line then ⟨0, position.column - origin.column⟩
  else ⟨position.line - origin.line, position.column⟩

instance : Add Position := ⟨add⟩

instance : Sub Position := ⟨sub⟩

/-- Reading order: lines first, then columns. -/
def Before (first second : Position) : Prop :=
  first.line < second.line ∨ first.line = second.line ∧ first.column < second.column

instance : LT Position := ⟨Before⟩

instance : LE Position := ⟨fun first second => first < second ∨ first = second⟩

instance (first second : Position) : Decidable (first < second) :=
  inferInstanceAs (Decidable (_ ∨ _ ∧ _))

instance (first second : Position) : Decidable (first ≤ second) :=
  inferInstanceAs (Decidable (_ ∨ _))

def earlier (first second : Position) : Position :=
  if second < first then second else first

def later (first second : Position) : Position :=
  if first < second then second else first

/-- The position behind a text that holds no line break. -/
def advance (position : Position) (text : String) : Position :=
  ⟨position.line, position.column + text.length⟩

def describe (position : Position) : String :=
  "Position(" ++ toString position.line ++ ", " ++ toString position.column ++ ")"

end Position

/-- The stretch of text from `start` up to, but not including, `stop`. -/
structure Range where
  start : Position
  stop : Position
  deriving DecidableEq

namespace Range

/-- The empty range at a position. -/
def point (position : Position) : Range := ⟨position, position⟩

def ofText (start : Position) (text : String) : Range := ⟨start, start.advance text⟩

/-- The least range that covers two. -/
def cover (first second : Range) : Range :=
  ⟨first.start.earlier second.start, first.stop.later second.stop⟩

def isEmpty (range : Range) : Bool := range.start = range.stop

def contains (range : Range) (position : Position) : Bool :=
  range.start ≤ position ∧ position < range.stop

/-- The range as seen from `origin`. -/
def relativeTo (range : Range) (origin : Position) : Range :=
  ⟨range.start - origin, range.stop - origin⟩

/-- A range seen from `origin`, back in the text. -/
def shifted (range : Range) (origin : Position) : Range :=
  ⟨origin + range.start, origin + range.stop⟩

/-- Ranges are ordered by their starts, then by their stops. -/
def Before (first second : Range) : Prop :=
  first.start < second.start ∨ first.start = second.start ∧ first.stop < second.stop

instance : LT Range := ⟨Before⟩

instance : LE Range := ⟨fun first second => first < second ∨ first = second⟩

instance (first second : Range) : Decidable (first < second) :=
  inferInstanceAs (Decidable (_ ∨ _ ∧ _))

instance (first second : Range) : Decidable (first ≤ second) :=
  inferInstanceAs (Decidable (_ ∨ _))

def describe (range : Range) : String :=
  "Range(" ++ toString range.start.line ++ ":" ++ toString range.start.column ++ "-" ++
    toString range.stop.line ++ ":" ++ toString range.stop.column ++ ")"

end Range

end LineScript
