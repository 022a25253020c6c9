import LineScript.Editor.Wire
import LineScript.Proofs.Extent
import LineScript.Proofs.Joining
import LineScript.Proofs.Rename

namespace LineScript

/-- A character in UTF-16: its own number, or beyond the basic plane a pair of surrogates. -/
def codeUnits (c : Char) : List Nat :=
  if 0xffff < c.toNat then
    [0xd800 + (c.toNat - 0x10000) / 0x400, 0xdc00 + (c.toNat - 0x10000) % 0x400]
  else [c.toNat]

/-- A text in UTF-16. -/
def utf16 (text : List Char) : List Nat := text.flatMap codeUnits

theorem utf16_append (first second : List Char) : utf16 (first ++ second) = utf16 first ++ utf16 second :=
  List.flatMap_append

theorem length_utf16 (text : List Char) : (utf16 text).length = units text := by
  induction text with
  | nil => rfl
  | cons c rest ih =>
    have own : (codeUnits c).length = charUnits c := by
      unfold codeUnits charUnits
      split <;> rfl
    rw [utf16, List.flatMap_cons, List.length_append, own, units, ← ih, utf16]

theorem units_append (first second : List Char) :
    units (first ++ second) = units first + units second := by
  rw [← length_utf16, utf16_append, List.length_append, length_utf16, length_utf16]

theorem charUnits_pos (c : Char) : 0 < charUnits c := by
  unfold charUnits
  split <;> omega

theorem units_take_le (line : List Char) (count : Nat) : units (line.take count) ≤ units line := by
  have whole := units_append (line.take count) (line.drop count)
  rw [List.take_append_drop] at whole
  omega

theorem units_take_lt {line : List Char} {count more : Nat} (less : count < more)
    (within : more ≤ line.length) : units (line.take count) < units (line.take more) := by
  induction line generalizing count more with
  | nil =>
    rw [List.length_nil] at within
    omega
  | cons c rest ih =>
    obtain ⟨more, rfl⟩ := Nat.exists_eq_add_one.mpr (Nat.zero_lt_of_lt less)
    rw [List.length_cons] at within
    cases count with
    | zero =>
      have := charUnits_pos c
      simp only [List.take_zero, List.take_succ_cons, units]
      omega
    | succ count =>
      have later := @ih count more (by omega) (by omega)
      simp only [List.take_succ_cons, units]
      omega

/-- The characters that reach an offset are the fewest that do. -/
theorem charsReaching_le_iff {offset : Nat} {line : List Char} (within : offset ≤ units line)
    (count : Nat) : charsReaching offset line ≤ count ↔ offset ≤ units (line.take count) := by
  induction line generalizing offset count with
  | nil =>
    obtain rfl := Nat.le_zero.mp within
    simp [charsReaching]
  | cons c rest ih =>
    rw [units] at within
    cases offset with
    | zero => simp [charsReaching]
    | succ offset =>
      cases count with
      | zero => simp [charsReaching, units]
      | succ count =>
        have later := @ih (offset + 1 - charUnits c) (by omega) count
        rw [charsReaching, List.take_succ_cons, units, Nat.succ_le_succ_iff, later]
        omega

/-- Only one column is the fewest characters that reach the units of a prefix. -/
theorem eq_of_fewest {line : List Char} {column count : Nat} (within : count ≤ line.length)
    (fewest : ∀ other, column ≤ other ↔ units (line.take count) ≤ units (line.take other)) :
    column = count := by
  refine Nat.le_antisymm ((fewest count).mpr (Nat.le_refl _)) (Nat.le_of_not_lt fun less => ?_)
  have enough := (fewest column).mp (Nat.le_refl _)
  have short := units_take_lt less within
  omega

theorem Separated.plain {endings : List LineEnding} {lines : List (List Char)}
    (separated : Separated endings lines) : ∀ line ∈ lines, '\n' ∉ line := by
  induction separated with
  | last free => simpa using free
  | next free _ _ ih => exact List.forall_mem_cons.mpr ⟨free, ih⟩

/-- No line of a text holds a line feed. -/
theorem linesOf_plain (source : String) : ∀ line ∈ linesOf source, '\n' ∉ line.toList := by
  intro line member
  obtain ⟨chars, inside, rfl⟩ := List.mem_map.mp member
  rw [String.toList_ofList]
  exact (separated_splitLines source.toList).1.plain chars inside

/-- What is relied on in a codec that counts UTF-16 units. Within a line, a column is sent as the units
before it, and an offset is read as the fewest characters that reach it. How an offset beyond the line is
read is left open. -/
structure Codec.CountsUnits (codec : Codec) : Prop where
  ofPosition {lines : List String} {row column : Nat} {line : String} :
    lines[row]? = some line → '\n' ∉ line.toList → column ≤ line.length →
      codec.ofPosition lines ⟨row, column⟩ = ⟨row, units (line.toList.take column)⟩
  toPosition {lines : List String} {row offset : Nat} {line : String} :
    lines[row]? = some line → '\n' ∉ line.toList → offset ≤ units line.toList →
      ∃ column : Nat, codec.toPosition lines ⟨row, offset⟩ = ⟨row, column⟩ ∧
        ∀ count, column ≤ count ↔ offset ≤ units (line.toList.take count)

namespace Utf16

theorem joinBreaks_eq {line : List Char} (plain : '\n' ∉ line) : joinBreaks line = line := by
  fun_induction joinBreaks line with
  | case1 => rfl
  | case2 rest ih => simp at plain
  | case3 c rest _ ih => rw [ih fun inside => plain (List.mem_cons_of_mem c inside)]

/-- Within a line an offset is read as the fewest characters that reach it. -/
theorem columnAt_le_iff {offset : Nat} {line : List Char} (within : offset ≤ units line)
    (count : Nat) : columnAt line offset ≤ count ↔ offset ≤ units (line.take count) := by
  rw [columnAt, if_neg (Nat.not_lt.mpr within)]
  exact charsReaching_le_iff within count

theorem codec_countsUnits : codec.CountsUnits where
  ofPosition found _ _ := by simp [codec, ofPosition, found]
  toPosition found plain within := by
    refine ⟨_, ?_, columnAt_le_iff within⟩
    simp only [codec, toPosition, found, joinBreaks_eq plain]

end Utf16

namespace Codec.CountsUnits

variable {codec : Codec} (counts : codec.CountsUnits) {lines : List String}
  (plain : ∀ line ∈ lines, '\n' ∉ line.toList)
include counts plain

theorem ofPosition_units_take {row column : Nat} {line : String} (found : lines[row]? = some line)
    (within : column ≤ line.length) :
    codec.ofPosition lines ⟨row, column⟩ = ⟨row, units (line.toList.take column)⟩ :=
  counts.ofPosition found (plain line (List.mem_of_getElem? found)) within

theorem toPosition_units_take {row column : Nat} {line : String} (found : lines[row]? = some line)
    (within : column ≤ line.length) :
    codec.toPosition lines ⟨row, units (line.toList.take column)⟩ = ⟨row, column⟩ := by
  obtain ⟨read, position, fewest⟩ :=
    counts.toPosition found (plain line (List.mem_of_getElem? found)) (units_take_le line.toList column)
  rw [position, eq_of_fewest (String.length_toList ▸ within) fewest]

/-- A position of the text is found again where it was sent to. -/
theorem toPosition_ofPosition {place : Position} (inside : place.Inside lines) :
    codec.toPosition lines (codec.ofPosition lines place) = place := by
  obtain ⟨row, column, line, rfl, found, within⟩ := inside
  rw [counts.ofPosition_units_take plain found within, counts.toPosition_units_take plain found within]

end Codec.CountsUnits

/-- Read as UTF-16, the range is that of a piece of one of the lines, and the piece is the text. -/
def WireRange.Selects (range : WireRange) (lines : List String) (text : String) : Prop :=
  ∃ (row : Nat) (line : String) (before after : List Nat), lines[row]? = some line ∧
    utf16 line.toList = before ++ utf16 text.toList ++ after ∧
    range = ⟨⟨row, before.length⟩, ⟨row, (before ++ utf16 text.toList).length⟩⟩

namespace Codec.CountsUnits

variable {codec : Codec} (counts : codec.CountsUnits) {lines : List String}
  (plain : ∀ line ∈ lines, '\n' ∉ line.toList) {row : Nat} {before text after : String}
  (found : lines[row]? = some (before ++ text ++ after))
include counts plain found

end Codec.CountsUnits

end LineScript
