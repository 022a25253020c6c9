import LineScript.Proofs.Edits
import LineScript.Proofs.Occurrences

namespace LineScript

/-- The two ways to end a line. -/
inductive LineEnding where
  | feed
  | returnFeed
  deriving DecidableEq

def LineEnding.chars : LineEnding → List Char
  | feed => ['\n']
  | returnFeed => ['\r', '\n']

/-- Put lines together, with an ending of its own behind each but the last. -/
def joinLines : List LineEnding → List (List Char) → List Char
  | _, [] => []
  | [], line :: _ => line
  | ending :: endings, line :: rest => line ++ (ending.chars ++ joinLines endings rest)

/-- The text of some lines. -/
def joined (endings : List LineEnding) (lines : List String) : String :=
  String.ofList (joinLines endings (lines.map String.toList))

/-- The line endings of a text, from the first to the last. -/
def endingsOf : List Char → List LineEnding
  | [] => []
  | '\r' :: '\n' :: rest => .returnFeed :: endingsOf rest
  | '\n' :: rest => .feed :: endingsOf rest
  | _ :: rest => endingsOf rest

/-- Lines that stay apart when they are put together: no line feed is inside a line, and no line
ends in a carriage return that the line feed behind it would draw to itself. -/
inductive Separated : List LineEnding → List (List Char) → Prop
  | last {line} : '\n' ∉ line → Separated [] [line]
  | next {ending endings line rest} : '\n' ∉ line → (ending = .feed → line.getLast? ≠ some '\r') →
      Separated endings rest → Separated (ending :: endings) (line :: rest)

/-- A text that is cut at a line ending is cut before it and behind it. -/
theorem splitLines_append_ending {text : List Char} {ending : LineEnding}
    (fits : ending = .feed → text.getLast? ≠ some '\r') (rest : List Char) :
    splitLines (text ++ (ending.chars ++ rest)) = splitLines text ++ splitLines rest := by
  have later {c : Char} {more : List Char} (fits : ending = .feed → (c :: more).getLast? ≠ some '\r')
      (feed : ending = .feed) : more.getLast? ≠ some '\r' := by
    cases more with
    | nil => simp
    | cons d others => simpa using fits feed
  fun_induction splitLines text with
  | case1 => cases ending <;> rfl
  | case2 more ih =>
    rw [List.cons_append, List.cons_append, splitLines, ih (later (later fits)), List.cons_append]
  | case3 more ih => rw [List.cons_append, splitLines, ih (later fits), List.cons_append]
  | case4 c more pair feed ih =>
    obtain ⟨first, others, split⟩ := splitLines_eq_cons more
    cases more with
    | nil =>
      -- The ending comes directly behind `c`, and may not take it for its own carriage return.
      have lone : c = '\r' → (ending.chars ++ rest).head? ≠ some '\n' := by
        rintro rfl
        cases ending with
        | feed => exact absurd rfl (fits rfl)
        | returnFeed => simp [LineEnding.chars]
      have alone : splitLines (ending.chars ++ rest) = [] :: splitLines rest := by cases ending <;> rfl
      rw [List.cons_append, List.nil_append, splitLines_cons feed lone, alone]
      rfl
    | cons d more =>
      have lone : c = '\r' → (d :: more ++ (ending.chars ++ rest)).head? ≠ some '\n' := by
        rintro rfl head
        obtain rfl : d = '\n' := by simpa using head
        exact pair more rfl rfl
      rw [List.cons_append, splitLines_cons feed lone, ih (later fits), split]
      rfl

theorem splitLines_line {line : List Char} (plain : '\n' ∉ line) : splitLines line = [line] := by
  induction line with
  | nil => rfl
  | cons c rest ih =>
    rw [List.mem_cons, not_or] at plain
    have lone : c = '\r' → rest.head? ≠ some '\n' :=
      fun _ head => plain.2 (List.mem_of_mem_head? head)
    rw [splitLines_cons (Ne.symm plain.1) lone, ih plain.2]
    rfl

/-- Lines that stay apart are the lines of the text that they are put together to. -/
theorem Separated.splitLines_joinLines {endings : List LineEnding} {lines : List (List Char)}
    (separated : Separated endings lines) : splitLines (joinLines endings lines) = lines := by
  induction separated with
  | last plain => exact splitLines_line plain
  | next plain fits _ ih =>
    rw [joinLines, splitLines_append_ending fits, splitLines_line plain, ih]
    rfl

theorem joinLines_cons_cons (endings : List LineEnding) (c : Char) (line : List Char)
    (rest : List (List Char)) :
    joinLines endings ((c :: line) :: rest) = c :: joinLines endings (line :: rest) := by
  cases endings <;> rfl

/-- One more character at the front does not draw the lines together. -/
theorem Separated.prepend {endings : List LineEnding} {line : List Char} {rest : List (List Char)}
    (separated : Separated endings (line :: rest)) {c : Char} (feed : c ≠ '\n')
    (lone : c = '\r' → (joinLines endings (line :: rest)).head? ≠ some '\n') :
    Separated endings ((c :: line) :: rest) := by
  cases separated with
  | last plain => exact .last (by simp [plain, Ne.symm feed])
  | @next ending endings _ _ plain fits later =>
    refine .next (by simp [plain, Ne.symm feed]) ?_ later
    rintro rfl
    cases line with
    | nil =>
      rintro last
      obtain rfl : c = '\r' := by simpa using last
      exact lone rfl rfl
    | cons d more => simpa using fits rfl

/-- A text is put together from its own lines and line endings. -/
theorem separated_splitLines (text : List Char) :
    Separated (endingsOf text) (splitLines text) ∧
      joinLines (endingsOf text) (splitLines text) = text := by
  fun_induction splitLines text with
  | case1 => exact ⟨.last (by simp), rfl⟩
  | case2 rest ih =>
    rw [endingsOf]
    exact ⟨.next (by simp) (by simp) ih.1, by rw [joinLines, ih.2]; rfl⟩
  | case3 rest ih =>
    rw [endingsOf]
    exact ⟨.next (by simp) (by simp) ih.1, by rw [joinLines, ih.2]; rfl⟩
  | case4 c rest pair feed ih =>
    have lone : c = '\r' → rest.head? ≠ some '\n' := by
      rintro rfl head
      obtain ⟨more, rfl⟩ := List.head?_eq_some_iff.mp head
      exact pair more rfl rfl
    obtain ⟨first, others, split⟩ := splitLines_eq_cons rest
    obtain ⟨separated, whole⟩ := ih
    rw [split] at separated whole ⊢
    rw [endingsOf.eq_4 c rest pair feed, List.modifyHead_cons, joinLines_cons_cons, whole]
    exact ⟨separated.prepend feed (whole.symm ▸ lone), rfl⟩

theorem Separated.of_length {endings : List LineEnding} {lines : List (List Char)}
    (length : endings.length + 1 = lines.length) (plain : ∀ line ∈ lines, '\n' ∉ line)
    (closed : ∀ line ∈ lines.dropLast, line.getLast? ≠ some '\r') : Separated endings lines := by
  induction lines generalizing endings with
  | nil => simp at length
  | cons line rest ih =>
    rw [List.forall_mem_cons] at plain
    cases endings with
    | nil =>
      obtain rfl : rest = [] := by simpa using length
      exact .last plain.1
    | cons ending endings =>
      have more : endings.length + 1 = rest.length := by simpa using length
      have some : rest ≠ [] := by
        rintro rfl
        simp at more
      rw [List.dropLast_cons_of_ne_nil some, List.forall_mem_cons] at closed
      exact .next plain.1 (fun _ => closed.1) (ih more plain.2 closed.2)

/-- Nothing but its lines counts in a text. -/
theorem analyze_eq_of_splitLines {source other : String}
    (same : splitLines source.toList = splitLines other.toList) (blockScoping : Bool) :
    analyze source blockScoping = analyze other blockScoping := by
  simp only [analyze, tokenize, linesOf, same]

/-- It does not matter how the lines of a text end: the text has the given lines, and its analysis
is one and the same for all choices of line endings. -/
theorem analyze_ignores_line_endings {lines : List String} (filled : lines ≠ [])
    (plain : ∀ line ∈ lines, '\n' ∉ line.toList)
    (closed : ∀ line ∈ lines.dropLast, line.toList.getLast? ≠ some '\r') (blockScoping : Bool) :
    ∃ model, model.lines = lines ∧ ∀ endings, endings.length + 1 = lines.length →
      linesOf (joined endings lines) = lines ∧
        analyze (joined endings lines) blockScoping = .ok model := by
  have split (endings : List LineEnding) (length : endings.length + 1 = lines.length) :
      splitLines (joined endings lines).toList = lines.map String.toList := by
    rw [joined, String.toList_ofList]
    apply Separated.splitLines_joinLines
    refine .of_length (by simpa using length) (by simpa using plain) ?_
    rw [← List.map_dropLast]
    exact List.forall_mem_map.mpr closed
  have own (endings : List LineEnding) (length : endings.length + 1 = lines.length) :
      linesOf (joined endings lines) = lines := by
    simp [linesOf, split endings length]
  have some : (List.replicate (lines.length - 1) LineEnding.feed).length + 1 = lines.length := by
    have positive := List.length_pos_iff.mpr filled
    rw [List.length_replicate]
    omega
  have analyzed := analyze_eq (joined (List.replicate (lines.length - 1) .feed) lines) blockScoping
  refine ⟨_, ?_, fun endings length => ⟨own endings length, .trans ?_ analyzed⟩⟩
  · exact own _ some
  · exact analyze_eq_of_splitLines ((split endings length).trans (split _ some).symm) blockScoping

/-- Carriage returns stand inside two of the lines and at the end of the last. -/
theorem analyze_ignores_line_endings_with_lone_returns :
    ∃ model, model.lines = ["let a = 1\r ", "", "a\rb\r"] ∧
      analyze "let a = 1\r \n\r\na\rb\r" true = .ok model ∧
      analyze "let a = 1\r \r\n\na\rb\r" true = .ok model := by
  obtain ⟨model, lines, same⟩ := @analyze_ignores_line_endings ["let a = 1\r ", "", "a\rb\r"]
    (by decide) (by decide) (by decide) true
  have one : joined [.feed, .returnFeed] ["let a = 1\r ", "", "a\rb\r"] =
      "let a = 1\r \n\r\na\rb\r" := by decide
  have two : joined [.returnFeed, .feed] ["let a = 1\r ", "", "a\rb\r"] =
      "let a = 1\r \r\n\na\rb\r" := by decide
  exact ⟨model, lines, one ▸ (same _ rfl).2, two ▸ (same _ rfl).2⟩

end LineScript
