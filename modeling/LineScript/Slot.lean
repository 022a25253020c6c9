namespace LineScript

/-- The place that an integer index names in a sequence of `size` members: counted from the front,
or from the back when negative. -/
def slot? (size : Nat) (index : Int) : Option Nat :=
  if 0 ≤ index then
    if index < size then some index.toNat else none
  else if 0 ≤ index + size then some (index + size).toNat
  else none

@[simp] theorem slot?_natCast (size place : Nat) :
    slot? size place = if place < size then some place else none := by
  simp [slot?]

end LineScript
