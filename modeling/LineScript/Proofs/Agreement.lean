import LineScript.Command.Check
import LineScript.Proofs.DistinctStarts
import LineScript.Proofs.Publishing
import LineScript.Proofs.WireAnswers

namespace LineScript

/-- Where every carriage return stands before a line feed, making all breaks line feeds leaves the
lines as they are. -/
theorem splitLines_unifyBreaks {chars : List Char}
    (paired : ∀ before after, chars = before ++ '\r' :: after → after.head? = some '\n') :
    splitLines (unifyBreaks chars) = splitLines chars := by
  fun_induction unifyBreaks chars with
  | case1 => rfl
  | case2 rest ih =>
    have later := ih fun before after split => paired ('\r' :: '\n' :: before) after (by simp [split])
    rw [splitLines, splitLines, later]
  | case3 rest alone ih =>
    obtain ⟨after, next⟩ := List.head?_eq_some_iff.mp (paired [] rest rfl)
    exact (alone after next).elim
  | case4 c rest _ other ih =>
    have later := ih fun before after split => paired (c :: before) after (by simp [split])
    by_cases feed : c = '\n'
    · rw [feed, splitLines, splitLines, later]
    · rw [splitLines_cons feed fun back => (other back).elim,
        splitLines_cons feed fun back => (other back).elim, later]

theorem analyze_unifyBreaks {text : String}
    (paired : ∀ before after, text.toList = before ++ '\r' :: after → after.head? = some '\n')
    (blockScoping : Bool) :
    analyze (String.ofList (unifyBreaks text.toList)) blockScoping = analyze text blockScoping := by
  apply analyze_eq_of_splitLines
  rw [String.toList_ofList, splitLines_unifyBreaks paired]

/-- A text is read back from its own bytes. -/
theorem Contents.decode?_utf8 (text : String) :
    (Contents.bytes text.toUTF8.data.toList).decode? = some text := by
  rw [Contents.decode?, Array.toArray_toList]
  exact dif_pos text.isValidUTF8

namespace Check

/-- The diagnostics of a text come out in the order of their starts, which are all different. -/
theorem inOrder_increasing {source : String} {blockScoping : Bool} {model : Model}
    (analyzed : analyze source blockScoping = .ok model) :
    (inOrder model).Pairwise (·.range.start < ·.range.start) := by
  have sorted : (inOrder model).Pairwise (·.range.start ≤ ·.range.start) := by
    refine (List.pairwise_mergeSort ?_ ?_ model.diagnostics).imp of_decide_eq_true
    · intro first second third one two
      exact decide_eq_true (Position.le_trans (of_decide_eq_true one) (of_decide_eq_true two))
    · intro first second
      simp only [Bool.or_eq_true, decide_eq_true_eq, Position.le_iff]
      omega
  have distinct : (inOrder model).Pairwise (·.range.start ≠ ·.range.start) :=
    (List.mergeSort_perm _ _).symm.pairwise (analyze_starts_distinct analyzed) Ne.symm
  exact (sorted.and distinct).imp fun ⟨order, apart⟩ => Or.resolve_right order apart

/-- What checking a file comes to whose bytes are those of a text. -/
theorem checkFiles_cons {text : String}
    (paired : ∀ before after, text.toList = before ++ '\r' :: after → after.head? = some '\n')
    {Failure : Type} [TellsFailure Failure] {openFile : String → Except Failure Contents} {word : String}
    (named : '\x00' ∉ (plainPath word).toList)
    (held : openFile (plainPath word) = .ok (.bytes text.toUTF8.data.toList))
    {blockScoping : Bool} {model : Model} (analyzed : analyze text blockScoping = .ok model)
    (tally : Tally) : ∃ checked : Tally,
      checked.output = tally.output ++ String.join ((inOrder model).map (diagnosticLine (plainPath word))) ∧
      ∀ rest, checkFiles blockScoping openFile tally (word :: rest) =
        checkFiles blockScoping openFile checked rest := by
  let checked : Tally := {
    status := if (inOrder model).isEmpty then tally.status else max tally.status 1
    output := tally.output ++ String.join ((inOrder model).map (diagnosticLine (plainPath word)))
    logs := tally.logs ++ trace (String.ofList (unifyBreaks text.toList)) model }
  have own : checkText blockScoping tally (plainPath word) text = .ok checked := by
    rw [checkText, analyze_unifyBreaks paired, analyzed]
    rfl
  refine ⟨checked, rfl, fun rest => ?_⟩
  rw [checkFiles]
  simp only [if_neg named, held, Contents.decode?_utf8, own]

end Check

theorem analyze_severity {source : String} {blockScoping : Bool} {model : Model}
    (analyzed : analyze source blockScoping = .ok model) :
    ∀ diagnostic ∈ model.diagnostics, diagnostic.severity = .warning := by
  cases (analyze_eq source blockScoping).symm.trans analyzed
  intro diagnostic member
  rcases List.mem_append.mp member with shape | name
  · rw [parseTokens_told] at shape
    obtain ⟨problem, _, said⟩ := List.mem_filterMap.mp (firstOfEachLine_subset _ shape)
    cases problem with
    | error => cases said; rfl
    | _ => cases said
  · rw [warnings_eq] at name
    obtain ⟨_, _, rfl⟩ := List.mem_map.mp name
    rfl

/-- Reading order among the positions of an editor. -/
def WirePosition.Before (first second : WirePosition) : Prop :=
  first.line < second.line ∨ first.line = second.line ∧ first.character < second.character

instance (first second : WirePosition) : Decidable (first.Before second) :=
  inferInstanceAs (Decidable (_ ∨ _ ∧ _))

/-- The line of a checker's report for a diagnostic that was sent. Its start is found in the text
again, and lines and columns are counted from one. -/
def WireDiagnostic.reportLine (codec : Codec) (path : String) (lines : List String)
    (sent : WireDiagnostic) : String :=
  let place := codec.toPosition lines sent.range.start
  path ++ ":" ++ toString (place.line + 1) ++ ":" ++ toString (place.column + 1) ++ ": warning: " ++
    sent.message ++ "\n"

namespace Codec.CountsUnits

variable {codec : Codec} (counts : codec.CountsUnits) {lines : List String}
  (plain : ∀ line ∈ lines, '\n' ∉ line.toList)
include counts plain

/-- Sending keeps the order of positions. -/
theorem before_of_lt {first second : Position} (inside : first.Inside lines)
    (other : second.Inside lines) (order : first < second) :
    (codec.ofPosition lines first).Before (codec.ofPosition lines second) := by
  obtain ⟨row, column, line, rfl, found, within⟩ := inside
  obtain ⟨otherRow, otherColumn, otherLine, rfl, otherFound, bound⟩ := other
  rw [counts.ofPosition_units_take plain found within,
    counts.ofPosition_units_take plain otherFound bound]
  rcases Position.lt_iff.mp order with above | ⟨same, left⟩
  · exact .inl (by simpa using above)
  · obtain rfl : row = otherRow := Int.natCast_inj.mp same
    obtain rfl := Option.some.inj (found.symm.trans otherFound)
    exact .inr ⟨rfl, units_take_lt (by simpa using left) (String.length_toList ▸ bound)⟩

/-- The line of a checker's report can be written from what was sent. -/
theorem reportLine_ofDiagnostic {diagnostic : Diagnostic} (severity : diagnostic.severity = .warning)
    (inside : diagnostic.range.start.Inside lines) (path : String) :
    (WireDiagnostic.ofDiagnostic codec lines diagnostic).reportLine codec path lines =
      Check.diagnosticLine path diagnostic := by
  have label : lowerText Severity.warning.label = "warning" := by decide +kernel
  have start : codec.toPosition lines (WireDiagnostic.ofDiagnostic codec lines diagnostic).range.start =
      diagnostic.range.start := counts.toPosition_ofPosition plain inside
  rw [WireDiagnostic.reportLine, start, Check.diagnosticLine, severity, label]
  simp only [String.append_assoc]
  rfl

end Codec.CountsUnits

/-- What is sent of a text, in the order of the starts, is what the checker reports of it. -/
theorem Snapshot.exists_ordered {codec : Codec} (counts : codec.CountsUnits) {snapshot : Snapshot}
    {blockScoping : Bool} (analyzed : analyze snapshot.text blockScoping = .ok snapshot.model)
    (path : String) : ∃ ordered : List WireDiagnostic, ordered.Perm (snapshot.wired codec) ∧
      ordered.Pairwise (·.range.start.Before ·.range.start) ∧
      ordered.map (·.reportLine codec path snapshot.model.lines) =
        (Check.inOrder snapshot.model).map (Check.diagnosticLine path) := by
  have plain := analyze_plain analyzed
  have perm : (Check.inOrder snapshot.model).Perm snapshot.model.diagnostics := List.mergeSort_perm _ _
  have inside : ∀ diagnostic ∈ Check.inOrder snapshot.model,
      diagnostic.range.start.Inside snapshot.model.lines :=
    fun diagnostic member => (analyze_inside analyzed diagnostic (perm.subset member)).start
  refine ⟨_, perm.map (WireDiagnostic.ofDiagnostic codec snapshot.model.lines), ?_, ?_⟩
  · rw [List.pairwise_map]
    exact (Check.inOrder_increasing analyzed).imp_of_mem fun one two order =>
      counts.before_of_lt plain (inside _ one) (inside _ two) order
  · rw [List.map_map]
    apply List.map_congr_left
    intro diagnostic member
    exact counts.reportLine_ofDiagnostic plain
      (analyze_severity analyzed diagnostic (perm.subset member)) (inside diagnostic member) path

/-- The checker and the server report the same problems of a text in which every carriage return stands
before a line feed. What the checker writes for a file with the bytes of the text are the diagnostics
that the server publishes when the text is opened, in the order of their starts, each with its start
found in the lines again. And the server does publish them, unless the version is stale. -/
theorem checker_and_server_report_same_problems {codec : Codec} (counts : codec.CountsUnits) {text : String}
    (paired : ∀ before after, text.toList = before ++ '\r' :: after → after.head? = some '\n')
    {Failure : Type} [TellsFailure Failure] {openFile : String → Except Failure Contents} {word : String}
    (named : '\x00' ∉ (plainPath word).toList)
    (held : openFile (plainPath word) = .ok (.bytes text.toUTF8.data.toList))
    (session : Session) (uri : String) (version : Option Int) (tally : Check.Tally) :
    let reply := session.didOpen codec uri version text
    ∃ checked : Check.Tally,
      (∀ rest, Check.checkFiles session.store.blockScoping openFile tally (word :: rest) =
        Check.checkFiles session.store.blockScoping openFile checked rest) ∧
      (∀ publication ∈ reply.published, ∃ (snapshot : Snapshot) (ordered : List WireDiagnostic),
        reply.session.store.get? uri = some snapshot ∧ snapshot.text = text ∧
        ordered.Perm publication.diagnostics ∧
        ordered.Pairwise (·.range.start.Before ·.range.start) ∧
        checked.output = tally.output ++
          String.join (ordered.map (·.reportLine codec (plainPath word) snapshot.model.lines))) ∧
      (¬ session.store.Stale uri version → ∃ publication, reply.published = [publication]) := by
  intro reply
  obtain ⟨model, analyzed⟩ : ∃ model, analyze text session.store.blockScoping = .ok model :=
    ⟨_, analyze_eq text session.store.blockScoping⟩
  obtain ⟨checked, output, going⟩ := Check.checkFiles_cons paired named held analyzed tally
  refine ⟨checked, going, ?_⟩
  rcases session.update_cases codec uri version text with
    ⟨stale, record, same⟩ | ⟨current, snapshot, record, _, _, rfl, own, same⟩
  · have silent : reply.published = [] := congrArg Reply.published same
    rw [silent]
    exact ⟨List.forall_mem_nil _, fun current => absurd stale current⟩
  · have sent : reply.published = [⟨uri, version, snapshot.wired codec⟩] := congrArg Reply.published same
    have stored : reply.session.store.get? uri = some snapshot := by
      rw [show reply.session = ⟨session.store.replace uri snapshot⟩ from congrArg Reply.session same,
        Store.get?_replace, if_pos rfl]
    rw [sent, List.forall_mem_singleton]
    refine ⟨?_, fun _ => ⟨_, rfl⟩⟩
    obtain rfl := Except.ok.inj (own.symm.trans analyzed)
    obtain ⟨ordered, perm, order, lines⟩ := snapshot.exists_ordered counts own (plainPath word)
    exact ⟨snapshot, ordered, stored, rfl, perm, order, by rw [lines, output]⟩

/-- The server sends the shape first, and a pair of units stands before one of the names. -/
theorem checker_and_server_report_same_problems_behind_pair :
    let text := "c\r\n😀 let b = d"
    let reply := (⟨.empty true⟩ : Session).didOpen Utf16.codec "u" (some 1) text
    let openFile : String → Except OpenFailure Contents := fun _ => .ok (.bytes text.toUTF8.data.toList)
    reply.published.map (·.diagnostics.map fun sent => (sent.message, sent.range.start)) =
      [[("Expected a statement.", ⟨1, 0⟩), ("'c' is not defined.", ⟨0, 0⟩),
        ("'d' is not defined.", ⟨1, 11⟩)]] ∧
    ∃ checked, Check.checkFiles true openFile ⟨0, "", []⟩ ["f"] = (checked, none) ∧
      checked.output = "f:1:1: warning: 'c' is not defined.\n" ++
        "f:2:1: warning: Expected a statement.\n" ++ "f:2:11: warning: 'd' is not defined.\n" := by
  intro text reply openFile
  let shape : WireDiagnostic := ⟨⟨⟨1, 0⟩, ⟨1, 2⟩⟩, "Expected a statement.", 2, "curage"⟩
  let early : WireDiagnostic := ⟨⟨⟨0, 0⟩, ⟨0, 1⟩⟩, "'c' is not defined.", 2, "curage"⟩
  let late : WireDiagnostic := ⟨⟨⟨1, 11⟩, ⟨1, 12⟩⟩, "'d' is not defined.", 2, "curage"⟩
  have published : reply.published = [⟨"u", some 1, [shape, early, late]⟩] := by decide +kernel
  have lines : (reply.session.store.get? "u").map (·.model.lines) = some ["c", "😀 let b = d"] := by
    decide +kernel
  have named : '\x00' ∉ (plainPath "f").toList := by decide +kernel
  have held : openFile (plainPath "f") = .ok (.bytes text.toUTF8.data.toList) := rfl
  have paired (before after : List Char) (split : text.toList = before ++ '\r' :: after) :
      after.head? = some '\n' := by
    have chars : text.toList = 'c' :: '\r' :: "\n😀 let b = d".toList := by decide
    rw [chars] at split
    rcases before with _ | ⟨first, _ | ⟨second, more⟩⟩
    · cases split
    · rw [← (List.cons.inj (List.cons.inj split).2).2]
      decide
    · have again : '\r' ∈ "\n😀 let b = d".toList := by
        rw [(List.cons.inj (List.cons.inj split).2).2]
        simp
      exact absurd again (by decide)
  obtain ⟨checked, going, agree, _⟩ := checker_and_server_report_same_problems Utf16.codec_countsUnits
    paired named held ⟨.empty true⟩ "u" (some 1) ⟨0, "", []⟩
  obtain ⟨snapshot, ordered, stored, _, perm, order, output⟩ :=
    agree ⟨"u", some 1, [shape, early, late]⟩ (published ▸ List.mem_singleton_self _)
  have same : ordered = [early, shape, late] := by
    have sorted : [early, shape, late].Pairwise (·.range.start.Before ·.range.start) := by decide
    refine List.Perm.eq_of_pairwise ?_ order sorted (perm.trans (by decide))
    intro one two _ _ first second
    unfold WirePosition.Before at first second
    omega
  refine ⟨by rw [published]; rfl, checked, going [], ?_⟩
  rw [stored, Option.map_some, Option.some.injEq] at lines
  rw [output, same, lines]
  decide +kernel

end LineScript
