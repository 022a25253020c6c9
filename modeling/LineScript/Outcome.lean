namespace LineScript

/-- A computation that succeeds does so in each of its steps. -/
theorem exists_of_bind_eq_ok {α β ε : Type} {outcome : Except ε α} {next : α → Except ε β}
    {result : β} (bound : (outcome >>= next) = .ok result) :
    ∃ value, outcome = .ok value ∧ next value = .ok result := by
  cases outcome with
  | error fault => cases bound
  | ok value => exact ⟨value, rfl, bound⟩

end LineScript
