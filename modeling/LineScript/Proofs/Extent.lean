import LineScript.Proofs.Edits
import LineScript.Proofs.Renaming
import LineScript.Proofs.Reporting

namespace LineScript

/-- The position is on one of the lines, at most right behind the last character of it. -/
def Position.Inside (position : Position) (lines : List String) : Prop :=
  ∃ (row column : Nat) (line : String), position = ⟨row, column⟩ ∧ lines[row]? = some line ∧
    column ≤ line.length

structure Range.Inside (range : Range) (lines : List String) : Prop where
  start : range.start.Inside lines
  stop : range.stop.Inside lines

theorem PieceOf.inside {row : Nat} {line : List Char} {token : Token}
    (piece : PieceOf row line token) {lines : List String}
    (found : lines[row]? = some (String.ofList line)) : token.range.Inside lines := by
  obtain ⟨before, after, whole, range⟩ := piece
  have length := congrArg List.length whole
  rw [List.length_append, List.length_append, String.length_toList] at length
  have bound : before.length + token.text.length ≤ (String.ofList line).length := by
    rw [String.length_ofList]
    omega
  rw [range]
  refine ⟨⟨row, before.length, _, rfl, found, by omega⟩, ?_⟩
  exact ⟨row, before.length + token.text.length, _, rfl, found, bound⟩

/-- The end of the last line is in the document. -/
theorem end_inside (source : String) :
    Position.Inside ⟨((splitLines source.toList).length - 1 : Nat),
      ((splitLines source.toList).getLast?.getD []).length⟩ (linesOf source) := by
  obtain ⟨first, rest, split⟩ := splitLines_eq_cons source.toList
  have filled : splitLines source.toList ≠ [] := by simp [split]
  have last := List.getLast?_eq_some_getLast filled
  have found : (linesOf source)[(splitLines source.toList).length - 1]? =
      some (String.ofList ((splitLines source.toList).getLast filled)) := by
    rw [linesOf, List.getElem?_map, ← List.getLast?_eq_getElem?, last, Option.map_some]
  refine ⟨_, _, _, rfl, found, ?_⟩
  rw [last, Option.getD_some, String.length_ofList]

/-- Every token of a text lies in the text. -/
theorem tokenize_inside {source : String} {token : Token} (member : token ∈ tokenize source) :
    token.range.Inside (linesOf source) := by
  rcases List.mem_append.mp member with inner | last
  · obtain ⟨row, line, found, piece, _⟩ := mem_linesTokens inner
    rw [Nat.zero_add] at piece
    apply piece.inside
    rw [linesOf, List.getElem?_map, found, Option.map_some]
  · rw [List.mem_singleton.mp last]
    exact ⟨end_inside source, end_inside source⟩

section Lost

variable {lines : List String}

theorem Parser.rangeOf_inside {tokens : List Token}
    (inside : ∀ token ∈ tokens, token.range.Inside lines) {start : Position}
    (place : start.Inside lines) : (rangeOf tokens start).Inside lines := by
  unfold rangeOf
  split
  · next first last head tail =>
    exact ⟨(inside first (List.mem_of_head? head)).start, (inside last (List.mem_of_getLast? tail)).stop⟩
  · exact ⟨place, place⟩

variable {all : List Token} (within : ∀ token ∈ all, token.range.Inside lines)
include within

/-- The range of skipped tokens lies in the text, also if none are left. -/
theorem Skips.rangeOf_inside {passed skipped kept : List Token} {next : Token}
    (skips : Skips all passed skipped next) (some : kept ⊆ passed ++ skipped) :
    (Parser.rangeOf kept next.range.start).Inside lines := by
  obtain ⟨⟨before, after, rfl⟩, _, _⟩ := skips
  have place := (within next (by simp)).start
  refine Parser.rangeOf_inside (fun token member => within token ?_) place
  rcases List.mem_append.mp (some member) with early | late
  · simp [early]
  · simp [late]

/-- What is said of lost tokens is said of a place in their text. -/
theorem Lost.inside {problem : Node} (lost : Lost all problem) :
    ∀ report ∈ problem.report?, report.range.Inside lines := by
  intro report said
  cases lost with
  | missing _ skips =>
    cases said
    exact skips.rangeOf_inside within (List.Subset.refl _)
  | nameless _ _ skips =>
    cases said
    exact skips.rangeOf_inside within (List.subset_cons_self _ _)
  | unexpectedEnd _ skips =>
    cases said
    exact skips.rangeOf_inside within (List.Subset.refl _)
  | unreadable _ skips =>
    cases said
    exact skips.rangeOf_inside within (List.Subset.refl _)
  | @tooDeep before keyword ahead eof beyond _ whole _ _ =>
    cases said
    have swallowed : ∀ token ∈ keyword :: (Parser.splitBlock 0 ahead).1, token ∈ all := by
      intro token member
      rw [whole, ← Parser.splitBlock_append 0 ahead]
      rcases List.mem_cons.mp member with rfl | member
      · simp
      · simp [member]
    exact Parser.rangeOf_inside (fun token member => within token (swallowed token member))
      (within keyword (swallowed keyword List.mem_cons_self)).start

end Lost

/-- A diagnostic of a text is about tokens of the text that are lost, or about one token of it. -/
theorem analyze_diagnostic_cases {source : String} {blockScoping : Bool} {model : Model}
    (analyzed : analyze source blockScoping = .ok model) {diagnostic : Diagnostic}
    (member : diagnostic ∈ model.diagnostics) :
    (∃ problem, Lost (tokenize source) problem ∧ problem.report? = some diagnostic) ∨
      ∃ token ∈ tokenize source, diagnostic.range = token.range := by
  cases (analyze_eq source blockScoping).symm.trans analyzed
  rcases List.mem_append.mp member with shape | name
  · simp only [parseTokens_told] at shape
    obtain ⟨problem, wrong, said⟩ := List.mem_filterMap.mp (firstOfEachLine_subset _ shape)
    exact .inl ⟨problem, parseTokens_lost source problem wrong, said⟩
  · simp only [warnings_eq] at name
    obtain ⟨token, undefined, rfl⟩ := List.mem_map.mp name
    obtain ⟨entry, known, found⟩ := List.mem_filterMap.mp undefined
    obtain rfl := Entry.undefined?_eq_some.mp found
    have inText := ((ledger_of_text source blockScoping).2 _ known).1
    exact .inr ⟨token, mem_tokenize_of_mem inText, rfl⟩

/-- Every diagnostic of a text is about a place in it. -/
theorem analyze_inside {source : String} {blockScoping : Bool} {model : Model}
    (analyzed : analyze source blockScoping = .ok model) :
    ∀ diagnostic ∈ model.diagnostics, diagnostic.range.Inside model.lines := by
  intro diagnostic member
  have origin := analyze_diagnostic_cases analyzed member
  cases (analyze_eq source blockScoping).symm.trans analyzed
  rcases origin with ⟨problem, lost, said⟩ | ⟨token, inText, range⟩
  · exact lost.inside (fun token inner => tokenize_inside inner) diagnostic said
  · rw [range]
    exact tokenize_inside inText

end LineScript
