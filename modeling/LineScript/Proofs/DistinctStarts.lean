import LineScript.Proofs.Accounting
import LineScript.Proofs.Extent
import LineScript.Proofs.Queries

namespace LineScript

/-- A token of a text takes up some room, or it stands at the end of a line. -/
theorem tokenize_wide {source : String} {token : Token} (member : token ∈ tokenize source) :
    token.range.start < token.range.stop ∨
      ∃ (row : Nat) (line : List Char), (splitLines source.toList)[row]? = some line ∧
        token.range.start = ⟨row, line.length⟩ := by
  rcases List.mem_append.mp member with inside | last
  · by_cases kind : token.kind = .endOfLine
    · obtain ⟨row, line, found, range⟩ := linesTokens_endOfLine inside kind
      rw [Nat.zero_add] at range
      exact .inr ⟨row, line, found, congrArg Range.start range⟩
    · exact .inl (linesTokens_wide inside kind).2
  · obtain ⟨first, rest, split⟩ := splitLines_eq_cons source.toList
    have filled : splitLines source.toList ≠ [] := by simp [split]
    have final := List.getLast?_eq_some_getLast filled
    refine .inr ⟨_, _, (List.getLast?_eq_getElem?.symm.trans final), ?_⟩
    rw [List.mem_singleton.mp last, final]
    rfl

/-- Where a name starts no other token does. -/
theorem eq_of_start_eq_name {source : String} {name token : Token}
    (member : name ∈ linesTokens 0 0 (splitLines source.toList)) (kind : name.kind = .name)
    (other : token ∈ tokenize source) (start : token.range.start = name.range.start) :
    token = name := by
  obtain ⟨filled, wide⟩ := name_start_lt_stop member kind
  rcases tokenize_wide other with room | ⟨row, line, found, last⟩
  · have inName := Range.contains_iff.mpr ⟨.inr rfl, wide⟩
    have inOther := Range.contains_iff.mpr ⟨.inr rfl, room⟩
    rw [start] at inOther
    exact (tokenize_tiled source).eq_of_contains (mem_tokenize_of_mem member) other inName inOther
  · -- A name would have to stand behind the last character of its own line.
    obtain ⟨place, text, here, ⟨before, after, whole, range⟩, _⟩ := mem_linesTokens member
    rw [start, range] at last
    obtain ⟨rows, columns⟩ := Position.mk.inj last
    obtain rfl : place = row := by omega
    obtain rfl := Option.some.inj (found.symm.trans here)
    have length := congrArg List.length whole
    rw [List.length_append, List.length_append, String.length_toList] at length
    have text := mt String.length_eq_zero_iff.mp filled
    omega

/-- Skipped tokens are reported at the first one that is kept, or else at the one where reading
resumes. -/
theorem Skips.start {all passed skipped kept : List Token} {next : Token}
    (skips : Skips all passed skipped next) (some : kept ⊆ passed ++ skipped) :
    ∃ token ∈ all, token.range.start = (Parser.rangeOf kept next.range.start).start ∧
      (token ∈ kept ∨ token.kind.resumes) := by
  obtain ⟨⟨before, after, rfl⟩, _, stop⟩ := skips
  cases kept with
  | nil => exact ⟨next, by simp, rfl, .inr stop⟩
  | cons first rest =>
    have inside := some List.mem_cons_self
    refine ⟨first, ?_, (Parser.rangeOf_cons_start first rest _).symm, .inl List.mem_cons_self⟩
    rw [← List.append_assoc passed]
    exact List.mem_append_right _ (List.mem_append_left _ inside)

/-- A problem is reported at the start of a token that it swallows, or of one where reading resumes. -/
theorem Lost.start {all : List Token} {problem : Node} (lost : Lost all problem) :
    ∀ report ∈ problem.report?, ∃ token ∈ all, token.range.start = report.range.start ∧
      (token ∈ problem.tokens ∨ token.kind.resumes) := by
  intro report said
  cases lost with
  | missing _ skips =>
    cases said
    exact skips.start (List.Subset.refl _)
  | nameless _ _ skips =>
    cases said
    obtain ⟨token, member, place, lost⟩ := skips.start (List.subset_cons_self _ _)
    exact ⟨token, member, place, lost.imp_left (List.mem_cons_of_mem _)⟩
  | unexpectedEnd _ skips =>
    cases said
    exact skips.start (List.Subset.refl _)
  | unreadable _ skips =>
    cases said
    exact skips.start (List.Subset.refl _)
  | @tooDeep before keyword ahead eof beyond _ whole _ _ =>
    cases said
    exact ⟨keyword, by simp [whole], (Parser.rangeOf_cons_start keyword _ keyword.range.start).symm,
      .inl List.mem_cons_self⟩

/-- No name that is reported stands where a problem of the shape does. -/
theorem problem_start_ne_name {source : String} {blockScoping : Bool} {problem : Node}
    {report : Diagnostic} {name : Token}
    (wrong : problem ∈ (parseTokens (tokenize source)).1.errors) (said : problem.report? = some report)
    (undefined : name ∈ undefinedNames (entriesOf source blockScoping)) :
    report.range.start ≠ name.range.start := by
  intro same
  have entry := mem_undefinedNames.mp undefined
  obtain ⟨inText, isName⟩ := (ledger_of_text source blockScoping).2 _ entry
  have kind : name.kind = .name := isName.1
  obtain ⟨token, member, start, lost⟩ := (parseTokens_lost source problem wrong).start report said
  obtain rfl := eq_of_start_eq_name inText kind member (start.trans same)
  rcases lost with swallowed | resumes
  · have standing := (mem_entriesOf_iff kind blockScoping).mp ⟨_, entry, rfl⟩
    exact standing.2 (List.mem_flatMap.mpr ⟨problem, wrong, swallowed⟩)
  · rw [kind] at resumes
    cases resumes

/-- No two diagnostics of a text start at the same place. -/
theorem analyze_starts_distinct {source : String} {blockScoping : Bool} {model : Model}
    (analyzed : analyze source blockScoping = .ok model) :
    model.diagnostics.Pairwise (·.range.start ≠ ·.range.start) := by
  cases (analyze_eq source blockScoping).symm.trans analyzed
  refine List.pairwise_append.mpr ⟨?_, ?_, ?_⟩
  · -- Problems of the shape are on different lines.
    rw [parseTokens_told]
    exact (firstOfEachLine_pairwise _).imp fun apart same => apart (congrArg Position.line same)
  · rw [warnings_eq, List.pairwise_map]
    have nodup := undefinedNames_nodup (entriesOf_consistent source blockScoping).nodup
    refine nodup.imp_of_mem fun {first second} inFirst inSecond apart same => apart ?_
    obtain ⟨one, name⟩ := (ledger_of_text source blockScoping).2 _ (mem_undefinedNames.mp inFirst)
    obtain ⟨two, other⟩ := (ledger_of_text source blockScoping).2 _ (mem_undefinedNames.mp inSecond)
    exact eq_of_start_eq one two name.1 other.1 same
  · intro report shape warning name
    rw [parseTokens_told] at shape
    obtain ⟨problem, wrong, said⟩ := List.mem_filterMap.mp (firstOfEachLine_subset _ shape)
    rw [warnings_eq] at name
    obtain ⟨token, undefined, rfl⟩ := List.mem_map.mp name
    exact problem_start_ne_name wrong said undefined

end LineScript
