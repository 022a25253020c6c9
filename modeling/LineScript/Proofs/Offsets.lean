import LineScript.Proofs.Placement

namespace LineScript

namespace Position

section Parts

variable {base offset position origin : Position}

theorem add_level (level : offset.line = 0) :
    base + offset = ⟨base.line, base.column + offset.column⟩ := if_pos level

theorem add_apart (apart : offset.line ≠ 0) :
    base + offset = ⟨base.line + offset.line, offset.column⟩ := if_neg apart

theorem sub_level (level : position.line = origin.line) :
    position - origin = ⟨0, position.column - origin.column⟩ := if_pos level

theorem sub_apart (apart : position.line ≠ origin.line) :
    position - origin = ⟨position.line - origin.line, position.column⟩ := if_neg apart

end Parts

theorem line_add (base offset : Position) : (base + offset).line = base.line + offset.line := by
  by_cases level : offset.line = 0
  · rw [add_level level, level, Int.add_zero]
  · rw [add_apart level]

theorem line_sub (position origin : Position) :
    (position - origin).line = position.line - origin.line := by
  by_cases level : position.line = origin.line
  · rw [sub_level level, level, Int.sub_self]
  · rw [sub_apart level]

/-- The offset from an origin to a position leads there. -/
theorem add_sub_cancel (origin position : Position) : origin + (position - origin) = position := by
  by_cases level : position.line = origin.line
  · have column : origin.column + (position.column - origin.column) = position.column := by omega
    rw [sub_level level, add_level rfl, ← level, column]
  · have apart : position.line - origin.line ≠ 0 := by omega
    have line : origin.line + (position.line - origin.line) = position.line := by omega
    rw [sub_apart level, add_apart apart, line]

/-- An offset is found again from where it leads. -/
theorem add_sub_cancel_left (origin offset : Position) : origin + offset - origin = offset := by
  by_cases level : offset.line = 0
  · have same : (origin + offset).line = origin.line := by rw [line_add, level, Int.add_zero]
    have column : origin.column + offset.column - origin.column = offset.column := by omega
    rw [sub_level same, add_level level, column, ← level]
  · have apart : (origin + offset).line ≠ origin.line := by
      rw [line_add]
      omega
    have line : origin.line + offset.line - origin.line = offset.line := by omega
    rw [sub_apart apart, add_apart level, line]

theorem zero_add (offset : Position) : ⟨0, 0⟩ + offset = offset := by
  by_cases level : offset.line = 0
  · rw [add_level level, Int.zero_add, ← level]
  · rw [add_apart level, Int.zero_add]

theorem add_zero (base : Position) : base + ⟨0, 0⟩ = base := by
  rw [add_level rfl, Int.add_zero]

/-- Offsets that do not lead upwards can be put together first. -/
theorem add_assoc {second third : Position} (first : Position) (down : 0 ≤ second.line)
    (further : 0 ≤ third.line) : first + second + third = first + (second + third) := by
  by_cases last : third.line = 0
  · -- The last offset shifts the column that the two before it lead to.
    have sum : (second + third).line = second.line := by rw [line_add, last, Int.add_zero]
    by_cases level : second.line = 0
    · rw [add_level last, add_level level, add_level (sum.trans level), add_level last, Int.add_assoc]
    · rw [add_level last, add_apart level, add_apart (sum ▸ level), add_level last]
  · -- The last offset starts its column afresh, and the two after the first one cannot end on its line.
    have sum : (second + third).line ≠ 0 := by
      rw [line_add]
      omega
    rw [add_apart last, add_apart sum, line_add, line_add, add_apart last, Int.add_assoc]

-- A way down and up again ends on the line where it started, but has forgotten the column there.
example : (⟨0, 5⟩ + ⟨1, 0⟩ + ⟨-1, 3⟩ : Position) ≠ ⟨0, 5⟩ + (⟨1, 0⟩ + ⟨-1, 3⟩) := by decide

section Order

variable {origin first second : Position}

/-- Positions are seen from an origin in the order in which they stand, on whichever side of it. -/
theorem sub_lt_sub_iff : first - origin < second - origin ↔ first < second := by
  rw [lt_iff, lt_iff, line_sub, line_sub]
  -- Columns count only on one line, and there both are seen from the origin's column or none is.
  by_cases level : first.line = second.line
  · by_cases near : first.line = origin.line
    · rw [sub_level near, sub_level (level.symm.trans near)]
      dsimp only
      omega
    · rw [sub_apart near, sub_apart (level ▸ near)]
      dsimp only
      omega
  · omega

theorem sub_left_inj : first - origin = second - origin ↔ first = second := by
  constructor
  · intro same
    rw [← add_sub_cancel origin first, same, add_sub_cancel]
  · rintro rfl
    rfl

theorem sub_le_sub_iff : first - origin ≤ second - origin ↔ first ≤ second :=
  or_congr sub_lt_sub_iff sub_left_inj

end Order

end Position

namespace Range

theorem shifted_relativeTo (range : Range) (origin : Position) :
    (range.relativeTo origin).shifted origin = range := by
  rw [relativeTo, shifted, Position.add_sub_cancel, Position.add_sub_cancel]

theorem contains_relativeTo (range : Range) (origin position : Position) :
    (range.relativeTo origin).contains (position - origin) = range.contains position := by
  rw [Bool.eq_iff_iff, contains_iff, contains_iff]
  exact and_congr Position.sub_le_sub_iff Position.sub_lt_sub_iff

end Range

/-- Positions can be seen from any origin and put back. Offsets undo differences and differences undo
offsets, offsets that do not lead upwards add up in any grouping, and positions keep their order: so a
range keeps its place and what it contains. -/
theorem offsets_keep_places_and_order :
    (∀ origin position : Position, origin + (position - origin) = position) ∧
    (∀ origin offset : Position, origin + offset - origin = offset) ∧
    (∀ first second third : Position, 0 ≤ first.line → 0 ≤ second.line → 0 ≤ third.line →
      first + second + third = first + (second + third)) ∧
    (∀ position : Position, ⟨0, 0⟩ + position = position ∧ position + ⟨0, 0⟩ = position) ∧
    (∀ origin first second : Position, first < second ↔ first - origin < second - origin) ∧
    ∀ (origin position : Position) (range : Range),
      (range.relativeTo origin).shifted origin = range ∧
        (range.relativeTo origin).contains (position - origin) = range.contains position := by
  refine ⟨Position.add_sub_cancel, Position.add_sub_cancel_left, ?_, ?_, ?_, ?_⟩
  · intro first second third _ down further
    exact Position.add_assoc first down further
  · intro position
    exact ⟨position.zero_add, position.add_zero⟩
  · intro origin first second
    exact Position.sub_lt_sub_iff.symm
  · intro origin position range
    exact ⟨range.shifted_relativeTo origin, range.contains_relativeTo origin position⟩

/-- A range that starts on the line of its origin and ends on the next, with a position on either line. -/
theorem offsets_keep_places_and_order_across_line_end :
    let origin : Position := ⟨2, 5⟩
    let range : Range := ⟨⟨2, 7⟩, ⟨3, 1⟩⟩
    range.relativeTo origin = ⟨⟨0, 2⟩, ⟨1, 1⟩⟩ ∧ (range.relativeTo origin).shifted origin = range ∧
      (range.relativeTo origin).contains (⟨3, 0⟩ - origin) ∧
      ¬ (range.relativeTo origin).contains (⟨2, 6⟩ - origin) ∧
      (⟨2, 9⟩ - origin < ⟨3, 0⟩ - origin) ∧
      origin + ⟨1, 4⟩ + ⟨0, 3⟩ = origin + (⟨1, 4⟩ + ⟨0, 3⟩) := by
  intro origin range
  obtain ⟨_, _, grouped, _, order, placed⟩ := offsets_keep_places_and_order
  obtain ⟨back, inside⟩ := placed origin ⟨3, 0⟩ range
  obtain ⟨_, outside⟩ := placed origin ⟨2, 6⟩ range
  refine ⟨by decide, back, ?_, ?_, ?_, ?_⟩
  · rw [inside]
    decide
  · rw [outside]
    decide
  · exact (order origin ⟨2, 9⟩ ⟨3, 0⟩).mp (by decide)
  · exact grouped origin ⟨1, 4⟩ ⟨0, 3⟩ (by decide) (by decide) (by decide)

end LineScript
