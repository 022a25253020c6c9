import LineScript.Proofs.Coverage
import LineScript.Source.Lines
import Mathlib.Data.List.Induction

namespace LineScript

/-- What is said of a failed construct. -/
def Node.report? : Node → Option Diagnostic
  | .error message range _ => some (.warning message range)
  | _ => none

/-- What would be said of a tree if every failed construct in it were reported. -/
def Node.reports (root : Node) : List Diagnostic := root.errors.filterMap report?

def Diagnostic.line (diagnostic : Diagnostic) : Int := diagnostic.range.start.line

/-- Whether no member of a list before a place is on the line of the one there. -/
def isFirstOfLine (reports : List Diagnostic) (entry : Diagnostic × Nat) : Bool :=
  !(reports.take entry.2).any (·.line = entry.1.line)

/-- The members of a list that are the first ones of their lines. -/
def firstOfEachLine (reports : List Diagnostic) : List Diagnostic :=
  (reports.zipIdx.filter (isFirstOfLine reports)).map (·.1)

theorem firstOfEachLine_subset (reports : List Diagnostic) : firstOfEachLine reports ⊆ reports := by
  intro report member
  obtain ⟨entry, kept, rfl⟩ := List.mem_map.mp member
  exact List.fst_mem_of_mem_zipIdx (List.mem_filter.mp kept).1

theorem isFirstOfLine_concat {reports : List Diagnostic} {entry : Diagnostic × Nat}
    (member : entry ∈ reports.zipIdx) (last : Diagnostic) :
    isFirstOfLine (reports ++ [last]) entry = isFirstOfLine reports entry := by
  have bound := List.snd_lt_of_mem_zipIdx member
  rw [isFirstOfLine, isFirstOfLine, List.take_append_of_le_length (by omega)]

theorem isFirstOfLine_last (reports : List Diagnostic) (last : Diagnostic) :
    isFirstOfLine (reports ++ [last]) (last, reports.length) =
      !reports.any (·.line = last.line) := by
  rw [isFirstOfLine, List.take_left]

theorem firstOfEachLine_concat (reports : List Diagnostic) (last : Diagnostic) :
    firstOfEachLine (reports ++ [last]) =
      if reports.any (·.line = last.line) then firstOfEachLine reports
      else firstOfEachLine reports ++ [last] := by
  have front : reports.zipIdx.filter (isFirstOfLine (reports ++ [last])) =
      reports.zipIdx.filter (isFirstOfLine reports) :=
    List.filter_congr fun _ member => isFirstOfLine_concat member last
  have back := isFirstOfLine_last reports last
  rw [firstOfEachLine, List.zipIdx_append, List.filter_append, front, List.map_append]
  by_cases seen : reports.any (·.line = last.line)
  · simp [firstOfEachLine, back, seen]
  · simp [firstOfEachLine, back, seen]

/-- Every line with a report keeps one. -/
theorem any_firstOfEachLine (reports : List Diagnostic) (line : Int) :
    (firstOfEachLine reports).any (·.line = line) = reports.any (·.line = line) := by
  induction reports using List.reverseRecOn with
  | nil => rfl
  | append_singleton reports last ih =>
    rw [firstOfEachLine_concat, List.any_append, ← ih]
    by_cases seen : reports.any (·.line = last.line)
    · rw [if_pos seen, List.any_cons, List.any_nil, Bool.or_false]
      by_cases same : last.line = line
      · rw [same] at seen
        simp [ih, seen, same]
      · simp [same]
    · rw [if_neg seen, List.any_append]

theorem firstOfEachLine_pairwise (reports : List Diagnostic) :
    (firstOfEachLine reports).Pairwise (·.line ≠ ·.line) := by
  induction reports using List.reverseRecOn with
  | nil => exact .nil
  | append_singleton reports last ih =>
    rw [firstOfEachLine_concat]
    by_cases seen : reports.any (·.line = last.line)
    · rwa [if_pos seen]
    · rw [if_neg seen, List.pairwise_append]
      refine ⟨ih, List.pairwise_singleton _ _, ?_⟩
      rw [← any_firstOfEachLine] at seen
      simpa using seen

/-- Reporting as one goes along, with a look at what was reported before, leaves the first problem of
each line. -/
theorem foldl_note_eq_firstOfEachLine (errors : List Node) :
    errors.foldl note [] = firstOfEachLine (errors.filterMap Node.report?) := by
  induction errors using List.reverseRecOn with
  | nil => rfl
  | append_singleton errors last ih =>
    rw [List.foldl_append, List.foldl_cons, List.foldl_nil, ih, List.filterMap_append]
    cases last with
    | error message range skipped =>
      -- The parser looks at the lines reported, the rule at those of all problems before.
      let report := Diagnostic.warning message range
      have noted (told : List Diagnostic) : note told (.error message range skipped) =
          if told.any (·.line = report.line) then told else told ++ [report] := rfl
      rw [noted, any_firstOfEachLine]
      exact (firstOfEachLine_concat _ report).symm
    | _ => exact (congrArg firstOfEachLine (List.append_nil _)).symm

namespace Parser

theorem ofTokens_diagnostics (tokens : List Token) : (ofTokens tokens).diagnostics = [] := by
  unfold ofTokens
  dsimp only
  split <;> rfl

end Parser

theorem parseTokens_told (tokens : List Token) :
    (parseTokens tokens).2 = firstOfEachLine (parseTokens tokens).1.reports := by
  have sane := Parser.ofTokens_sane tokens
  have told := (Parser.program_reads sane (Parser.ofTokens_depth tokens)).2.told
  rw [Parser.ofTokens_diagnostics, foldl_note_eq_firstOfEachLine] at told
  exact told

/-- The problems that are reported of a token list are the failed constructs of its tree, in the order
of the walk, but for those whose line has an earlier one. -/
theorem parseTokens_reports_first_of_each_line (tokens : List Token) :
    (parseTokens tokens).2 = firstOfEachLine (parseTokens tokens).1.reports ∧
      (parseTokens tokens).2.Pairwise (·.line ≠ ·.line) ∧
      ((parseTokens tokens).2 = [] ↔ (parseTokens tokens).1.errors = []) := by
  refine ⟨parseTokens_told tokens, ?_, ?_⟩
  · rw [parseTokens_told]
    exact firstOfEachLine_pairwise _
  · exact Parser.program_diagnostics_eq_nil (Parser.ofTokens_sane tokens)
      (Parser.ofTokens_depth tokens) (Parser.ofTokens_diagnostics tokens)

/-- Of three failed constructs on a line only the first is reported. -/
example : (parseTokens (tokenize "let x = ) let\nend")).1.errors.length = 4 ∧
    (parseTokens (tokenize "let x = ) let\nend")).2.map (fun found => (found.message, found.line)) =
      [("Expected an expression.", 0), ("Unexpected 'end'.", 1)] := by
  decide +kernel

end LineScript
