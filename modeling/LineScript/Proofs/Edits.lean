import LineScript.Document.Cursor
import LineScript.Proofs.Placement

namespace LineScript

/-- What the edits put in at a position. -/
def inserted (edits : List TextEdit) (position : Position) : List Char :=
  (edits.filter (·.range.start = position)).flatMap (·.newText.toList)

/-- Whether the character at a position is replaced. -/
def covered (edits : List TextEdit) (position : Position) : Bool :=
  edits.any (·.range.contains position)

def kept (edits : List TextEdit) (position : Position) (c : Char) : List Char :=
  if covered edits position then [] else [c]

def Position.next (position : Position) : Position := ⟨position.line, position.column + 1⟩

def Position.below (position : Position) : Position := ⟨position.line + 1, 0⟩

/-- Apply edits, all at once, to a text that starts at a position. Line breaks stay as they are. -/
def rewriteFrom (edits : List TextEdit) (position : Position) : List Char → List Char
  | [] => inserted edits position
  | '\r' :: '\n' :: rest =>
    inserted edits position ++ '\r' :: '\n' :: rewriteFrom edits position.below rest
  | '\n' :: rest => inserted edits position ++ '\n' :: rewriteFrom edits position.below rest
  | c :: rest =>
    inserted edits position ++ (kept edits position c ++ rewriteFrom edits position.next rest)

/-- The text after all edits, whose ranges are those of the text before any of them. -/
def applyEdits (source : String) (edits : List TextEdit) : String :=
  String.ofList (rewriteFrom edits ⟨0, 0⟩ source.toList)

def rewriteLine (edits : List TextEdit) (position : Position) : List Char → List Char
  | [] => inserted edits position
  | c :: rest =>
    inserted edits position ++ (kept edits position c ++ rewriteLine edits position.next rest)

def rewriteLines (edits : List TextEdit) (position : Position) : List (List Char) → List (List Char)
  | [] => []
  | line :: rest => rewriteLine edits position line :: rewriteLines edits position.below rest

theorem rewriteLines_length (edits : List TextEdit) (position : Position) (lines : List (List Char)) :
    (rewriteLines edits position lines).length = lines.length := by
  induction lines generalizing position with
  | nil => rfl
  | cons line rest ih => simp [rewriteLines, ih]

/-- A text that neither is empty nor holds a line break. -/
def Inline (text : List Char) : Prop := text ≠ [] ∧ ∀ c ∈ text, c ≠ '\n' ∧ c ≠ '\r'

theorem splitLines_cons {c : Char} {rest : List Char} (feed : c ≠ '\n')
    (pair : c = '\r' → rest.head? ≠ some '\n') :
    splitLines (c :: rest) = (splitLines rest).modifyHead (c :: ·) := by
  apply splitLines.eq_4
  · rintro after rfl rfl
    exact pair rfl rfl
  · exact feed

theorem splitLines_eq_cons (text : List Char) : ∃ first rest, splitLines text = first :: rest := by
  fun_induction splitLines text with
  | case1 => exact ⟨_, _, rfl⟩
  | case2 => exact ⟨_, _, rfl⟩
  | case3 => exact ⟨_, _, rfl⟩
  | case4 c rest _ _ ih =>
    obtain ⟨first, others, split⟩ := ih
    exact ⟨_, _, by rw [split]; rfl⟩

theorem splitLines_append {text : List Char} (plain : ∀ c ∈ text, c ≠ '\n' ∧ c ≠ '\r')
    (rest : List Char) :
    splitLines (text ++ rest) = (splitLines rest).modifyHead (text ++ ·) := by
  induction text with
  | nil =>
    obtain ⟨first, others, split⟩ := splitLines_eq_cons rest
    simp [split]
  | cons c more ih =>
    rw [List.forall_mem_cons] at plain
    rw [List.cons_append, splitLines_cons plain.1.1 (fun cr => absurd cr plain.1.2), ih plain.2]
    cases splitLines rest <;> rfl

section Inline

variable {edits : List TextEdit} (inline : ∀ edit ∈ edits, Inline edit.newText.toList)
include inline

theorem inserted_plain (position : Position) :
    ∀ c ∈ inserted edits position, c ≠ '\n' ∧ c ≠ '\r' := by
  intro c member
  obtain ⟨edit, inside, here⟩ := List.mem_flatMap.mp member
  exact (inline edit (List.mem_filter.mp inside).1).2 c here

/-- Where a replaced stretch starts, something is put in. -/
theorem inserted_next_ne_nil {position : Position} (before : covered edits position = false)
    (here : covered edits position.next) : inserted edits position.next ≠ [] := by
  obtain ⟨edit, member, contains⟩ := List.any_eq_true.mp here
  have outside := List.any_eq_false.mp before edit member
  simp only [Range.contains, decide_eq_true_eq, Position.le_iff, Position.lt_iff,
    Position.next] at contains outside
  have start : edit.range.start = position.next := by
    have line : edit.range.start.line = position.line := by omega
    have column : edit.range.start.column = position.column + 1 := by omega
    exact (Position.mk.injEq ..).mpr ⟨line, column⟩
  intro empty
  have nothing := List.flatMap_eq_nil_iff.mp empty edit
    (List.mem_filter.mpr ⟨member, by simpa using start⟩)
  exact (inline edit member).1 nothing

/-- Rewriting makes no line break behind a carriage return that is kept. -/
theorem head?_rewriteFrom_next {position : Position} (before : covered edits position = false)
    {rest : List Char} (lone : rest.head? ≠ some '\n') :
    (rewriteFrom edits position.next rest).head? ≠ some '\n' := by
  have plain := inserted_plain inline position.next
  have filled := inserted_next_ne_nil inline before
  cases text : inserted edits position.next with
  | cons c more =>
    rw [text] at plain
    have first : (rewriteFrom edits position.next rest).head? = some c := by
      fun_cases rewriteFrom edits position.next rest <;> simp [text]
    simpa [first] using (plain c List.mem_cons_self).1
  | nil =>
    have free : covered edits position.next = false := by
      rw [Bool.eq_false_iff]
      intro here
      exact filled here text
    fun_cases rewriteFrom edits position.next rest with
    | case1 => simp [text]
    | case2 => simp [text]
    | case3 => exact absurd rfl lone
    | case4 c more _ feed => simpa [text, kept, free] using feed

/-- Edits inside lines rewrite each line by itself. -/
theorem splitLines_rewriteFrom (position : Position) (text : List Char) :
    splitLines (rewriteFrom edits position text) = rewriteLines edits position (splitLines text) := by
  have plain := inserted_plain inline
  fun_induction rewriteFrom edits position text with
  | case1 position =>
    have alone := splitLines_append (plain position) []
    simpa [splitLines, rewriteLines, rewriteLine] using alone
  | case2 position rest ih =>
    rw [splitLines_append (plain position), splitLines, splitLines, ih]
    simp [rewriteLines, rewriteLine]
  | case3 position rest ih =>
    rw [splitLines_append (plain position), splitLines, splitLines, ih]
    simp [rewriteLines, rewriteLine]
  | case4 position c rest pair feed ih =>
    have lone : c = '\r' → rest.head? ≠ some '\n' := by
      rintro rfl head
      obtain ⟨more, rfl⟩ := List.head?_eq_some_iff.mp head
      exact pair more rfl rfl
    have copied : splitLines (kept edits position c ++ rewriteFrom edits position.next rest) =
        (splitLines (rewriteFrom edits position.next rest)).modifyHead (kept edits position c ++ ·) := by
      cases here : covered edits position with
      | true => exact (splitLines_append (by simp [kept, here]) _)
      | false =>
        simp only [kept, here, Bool.false_eq_true, if_false, List.singleton_append]
        exact splitLines_cons feed fun cr => head?_rewriteFrom_next inline here (lone cr)
    obtain ⟨first, others, split⟩ := splitLines_eq_cons rest
    rw [splitLines_append (plain position), copied, ih, splitLines_cons feed lone, split]
    rfl

end Inline

/-- Two lists of edits do the same at a position. -/
def Alike (first second : List TextEdit) (position : Position) : Prop :=
  inserted first position = inserted second position ∧
    covered first position = covered second position

/-- At the position nothing is put in and nothing is replaced. -/
def Idle (edits : List TextEdit) (position : Position) : Prop :=
  inserted edits position = [] ∧ covered edits position = false

theorem Idle.of_before {edits : List TextEdit} {position : Position}
    (before : ∀ edit ∈ edits, edit.range.start < position ∧ edit.range.stop ≤ position) :
    Idle edits position := by
  constructor
  · rw [inserted, List.flatMap_eq_nil_iff]
    intro edit member
    obtain ⟨inside, start⟩ := List.mem_filter.mp member
    have order := Position.lt_iff.mp (before edit inside).1
    rw [of_decide_eq_true start] at order
    omega
  · refine List.any_eq_false.mpr fun edit member => ?_
    have order := Position.le_iff.mp (before edit member).2
    simp only [Range.contains, decide_eq_true_eq, Position.lt_iff]
    omega

theorem Idle.of_behind {edits : List TextEdit} {position : Position}
    (behind : ∀ edit ∈ edits, position < edit.range.start) : Idle edits position := by
  constructor
  · rw [inserted, List.flatMap_eq_nil_iff]
    intro edit member
    obtain ⟨inside, start⟩ := List.mem_filter.mp member
    have order := Position.lt_iff.mp (behind edit inside)
    rw [of_decide_eq_true start] at order
    omega
  · refine List.any_eq_false.mpr fun edit member => ?_
    have order := Position.lt_iff.mp (behind edit member)
    simp only [Range.contains, decide_eq_true_eq, Position.le_iff]
    omega

theorem inserted_append (first second : List TextEdit) (position : Position) :
    inserted (first ++ second) position = inserted first position ++ inserted second position := by
  simp [inserted]

theorem covered_append (first second : List TextEdit) (position : Position) :
    covered (first ++ second) position = (covered first position || covered second position) := by
  simp [covered]

theorem Idle.append_left {first : List TextEdit} {position : Position} (idle : Idle first position)
    (second : List TextEdit) : Alike (first ++ second) second position := by
  simp [Alike, inserted_append, covered_append, idle.1, idle.2]

theorem Idle.append_right {second : List TextEdit} {position : Position}
    (idle : Idle second position) (first : List TextEdit) :
    Alike (first ++ second) first position := by
  simp [Alike, inserted_append, covered_append, idle.1, idle.2]

theorem applyEdits_congr {first second : List TextEdit}
    (alike : ∀ position, Alike first second position) (source : String) :
    applyEdits source first = applyEdits source second := by
  have same (position : Position) (text : List Char) :
      rewriteFrom first position text = rewriteFrom second position text := by
    fun_induction rewriteFrom first position text with
    | case1 position => simp [rewriteFrom, (alike position).1]
    | case2 position rest ih => simp [rewriteFrom, (alike position).1, ih]
    | case3 position rest ih => simp [rewriteFrom, (alike position).1, ih]
    | case4 position c rest pair feed ih =>
      obtain ⟨put, gone⟩ := alike position
      rw [rewriteFrom.eq_4 second position c rest pair feed, kept, kept, put, gone, ih]
  rw [applyEdits, applyEdits, same]

/-- The order of edits that put in one text does not matter. -/
theorem applyEdits_perm {first second : List TextEdit} {newText : String} (perm : first.Perm second)
    (same : ∀ edit ∈ first, edit.newText = newText) (source : String) :
    applyEdits source first = applyEdits source second := by
  refine applyEdits_congr (fun position => ⟨?_, perm.any_eq⟩) source
  have texts (edits : List TextEdit) (all : ∀ edit ∈ edits, edit.newText = newText) :
      inserted edits position = (List.replicate
        (edits.filter (·.range.start = position)).length newText.toList).flatten := by
    rw [inserted, ← List.map_const', List.flatMap_def]
    congr 1
    refine List.map_congr_left fun edit member => ?_
    rw [all edit (List.mem_filter.mp member).1]
  rw [texts first same, texts second fun edit member => same edit (perm.mem_iff.mpr member),
    (perm.filter _).length_eq]

example : applyEdits "ab\r\nc" [⟨⟨⟨1, 0⟩, ⟨1, 1⟩⟩, "xy"⟩, ⟨⟨⟨0, 1⟩, ⟨0, 2⟩⟩, "xy"⟩] = "axy\r\nxy" := by
  decide +kernel

theorem rewriteLine_congr {first second : List TextEdit} {position : Position}
    (alike : ∀ column, position.column ≤ column → Alike first second ⟨position.line, column⟩)
    (line : List Char) : rewriteLine first position line = rewriteLine second position line := by
  induction line generalizing position with
  | nil => exact (alike position.column (Int.le_refl _)).1
  | cons c rest ih =>
    obtain ⟨put, gone⟩ : Alike first second position := alike position.column (Int.le_refl _)
    have later : rewriteLine first position.next rest = rewriteLine second position.next rest :=
      ih fun column order => alike column (by simp only [Position.next] at order; omega)
    simp only [rewriteLine, kept, put, gone, later]

theorem rewriteLines_congr {first second : List TextEdit} {position : Position}
    (alike : ∀ other, position ≤ other → Alike first second other) (lines : List (List Char)) :
    rewriteLines first position lines = rewriteLines second position lines := by
  induction lines generalizing position with
  | nil => rfl
  | cons line rest ih =>
    have here : rewriteLine first position line = rewriteLine second position line :=
      rewriteLine_congr (fun column order => alike _ (Position.le_iff.mpr (.inr ⟨rfl, order⟩))) line
    have later : rewriteLines first position.below rest = rewriteLines second position.below rest := by
      refine ih fun other order => alike other ?_
      rw [Position.le_iff] at order ⊢
      simp only [Position.below] at order
      omega
    rw [rewriteLines, rewriteLines, here, later]

/-- A run of characters where nothing is put in is copied, or it is left out. -/
theorem rewriteLine_run {edits : List TextEdit} {row column : Int} {text : List Char} (gone : Bool)
    (run : ∀ place, column ≤ place → place < column + text.length →
      inserted edits ⟨row, place⟩ = [] ∧ covered edits ⟨row, place⟩ = gone)
    (rest : List Char) :
    rewriteLine edits ⟨row, column⟩ (text ++ rest) =
      (if gone then [] else text) ++ rewriteLine edits ⟨row, column + text.length⟩ rest := by
  induction text generalizing column with
  | nil => cases gone <;> simp
  | cons c more ih =>
    obtain ⟨put, here⟩ := run column (Int.le_refl _) (by simp only [List.length_cons]; omega)
    have later := @ih (column + 1) fun place lower upper =>
      run place (by omega) (by simp only [List.length_cons]; omega)
    have stop : column + 1 + more.length = column + (c :: more).length := by
      simp only [List.length_cons]
      omega
    rw [List.cons_append, rewriteLine, Position.next, later, put, kept, here, stop]
    cases gone <;> rfl

theorem Idle.of_behind_on_line {edits : List TextEdit} {row column : Int}
    (behind : ∀ edit ∈ edits, edit.range.start.line = row ∧ column ≤ edit.range.start.column)
    {place : Int} (before : place < column) : Idle edits ⟨row, place⟩ := by
  refine .of_behind fun edit member => Position.lt_iff.mpr (.inr ?_)
  obtain ⟨line, order⟩ := behind edit member
  exact ⟨line.symm, by simp only; omega⟩

/-- Before the first of the edits a line is copied. -/
theorem rewriteLine_copied {edits : List TextEdit} {row column : Int} {text : List Char}
    (behind : ∀ edit ∈ edits, edit.range.start.line = row ∧
      column + text.length ≤ edit.range.start.column) (rest : List Char) :
    rewriteLine edits ⟨row, column⟩ (text ++ rest) =
      text ++ rewriteLine edits ⟨row, column + text.length⟩ rest :=
  rewriteLine_run false (fun _ _ upper => Idle.of_behind_on_line behind upper) rest

section Replaced

variable {edit : TextEdit} {row column : Int} {text : List Char}
  (range : edit.range = .ofText ⟨row, column⟩ (String.ofList text))
include range

theorem inserted_ofText (place : Int) :
    inserted [edit] ⟨row, place⟩ = if column = place then edit.newText.toList else [] := by
  by_cases here : column = place <;> simp [inserted, range, Range.ofText, here]

theorem covered_ofText (place : Int) :
    covered [edit] ⟨row, place⟩ = decide (column ≤ place ∧ place < column + text.length) := by
  simp [covered, range, Range.contains, Range.ofText, Position.advance, Position.le_iff,
    Position.lt_iff]

/-- An edit of a piece of a line puts its text in the place of the piece. -/
theorem rewriteLine_replaced (filled : text ≠ []) {later : List TextEdit}
    (behind : ∀ other ∈ later, other.range.start.line = row ∧
      column + text.length ≤ other.range.start.column) (rest : List Char) :
    rewriteLine ([edit] ++ later) ⟨row, column⟩ (text ++ rest) =
      edit.newText.toList ++ rewriteLine later ⟨row, column + text.length⟩ rest := by
  obtain ⟨c, more, rfl⟩ := List.exists_cons_of_ne_nil filled
  have width : ((c :: more).length : Int) = more.length + 1 := by simp
  have alone : ∀ place, place < column + (c :: more).length →
      Alike ([edit] ++ later) [edit] ⟨row, place⟩ :=
    fun place before => (Idle.of_behind_on_line behind before).append_right [edit]
  have inner : ∀ place, column + 1 ≤ place → place < column + 1 + more.length →
      inserted ([edit] ++ later) ⟨row, place⟩ = [] ∧ covered ([edit] ++ later) ⟨row, place⟩ = true := by
    intro place lower upper
    obtain ⟨put, gone⟩ := alone place (by omega)
    rw [put, gone, inserted_ofText range, covered_ofText range, if_neg (by omega)]
    exact ⟨rfl, decide_eq_true (by omega)⟩
  have done : ∀ place, column + (c :: more).length ≤ place →
      Alike ([edit] ++ later) later ⟨row, place⟩ := by
    intro place order
    refine Idle.append_left ⟨?_, ?_⟩ later
    · rw [inserted_ofText range, if_neg (by omega)]
    · rw [covered_ofText range]
      exact decide_eq_false (by omega)
  obtain ⟨put, gone⟩ := alone column (by omega)
  rw [inserted_ofText range, if_pos rfl] at put
  rw [covered_ofText range, decide_eq_true ⟨Int.le_refl _, by omega⟩] at gone
  calc rewriteLine ([edit] ++ later) ⟨row, column⟩ (c :: more ++ rest)
    _ = inserted ([edit] ++ later) ⟨row, column⟩ ++ (kept ([edit] ++ later) ⟨row, column⟩ c ++
          rewriteLine ([edit] ++ later) ⟨row, column + 1⟩ (more ++ rest)) := rfl
    _ = edit.newText.toList ++ rewriteLine ([edit] ++ later) ⟨row, column + 1 + more.length⟩ rest := by
      rw [put, kept, if_pos gone, rewriteLine_run true inner]
      rfl
    _ = edit.newText.toList ++ rewriteLine later ⟨row, column + (c :: more).length⟩ rest := by
      have stop : column + 1 + more.length = column + (c :: more).length := by omega
      rw [stop, rewriteLine_congr done]

end Replaced

end LineScript
