import LineScript.Proofs.Edits
import LineScript.Proofs.Renaming

namespace LineScript

theorem isOperatorChar_of_isNameStart {c : Char} (start : isNameStart c) :
    isOperatorChar c = false := by
  rw [Bool.eq_false_iff]
  intro sign
  rw [(isOperatorChar_cases sign).2.1] at start
  cases start

/-- The parts of a valid name. -/
theorem exists_of_isValidName {name : String} (valid : isValidName name) :
    ∃ c more, name.toList = c :: more ∧ isNameStart c ∧ (∀ d ∈ more, isNameChar d) ∧
      TokenKind.ofWord name = .name := by
  unfold isValidName at valid
  split at valid
  · cases valid
  · next c more spell =>
    simp only [Bool.and_eq_true, List.all_eq_true, decide_eq_true_eq] at valid
    exact ⟨c, more, spell, valid.1.1, valid.1.2, valid.2⟩

theorem inline_of_isValidName {name : String} (valid : isValidName name) : Inline name.toList := by
  obtain ⟨c, more, spell, start, run, _⟩ := exists_of_isValidName valid
  have plain : ∀ d, isNameChar d → d ≠ '\n' ∧ d ≠ '\r' := by
    intro d name
    constructor <;> rintro rfl <;> exact absurd name (by decide)
  rw [spell]
  exact ⟨by simp, List.forall_mem_cons.mpr
    ⟨plain c (by simp [isNameChar, start]), fun d member => plain d (run d member)⟩⟩

theorem admitted_of_isValidName {name : String} (valid : isValidName name) {next : List Char}
    (stop : startsWith isNameChar next = false) : Admitted .name name.toList next := by
  obtain ⟨c, more, spell, start, run, kind⟩ := exists_of_isValidName valid
  have word : Admitted (.ofWord (String.ofList (c :: more))) (c :: more) next := .word start run stop
  rwa [← spell, String.ofList_toList, kind] at word

theorem Admitted.name_parts {text next : List Char} (admitted : Admitted .name text next) :
    (∃ c more, text = c :: more ∧ isNameStart c) ∧ startsWith isNameChar next = false := by
  generalize name : TokenKind.name = kind at admitted
  cases admitted with
  | @word c more _ start _ stop => exact ⟨⟨c, more, rfl, start⟩, stop⟩
  | _ => cases name

/-- Two texts start alike, as far as the lexical rules can see. -/
structure StartsAlike (first second : List Char) : Prop where
  digit : startsWith Char.isDigit first = startsWith Char.isDigit second
  name : startsWith isNameChar first = startsWith isNameChar second
  operator : startsWith isOperatorChar first = startsWith isOperatorChar second

theorem StartsAlike.refl (text : List Char) : StartsAlike text text := ⟨rfl, rfl, rfl⟩

theorem StartsAlike.of_head (c : Char) (first second : List Char) :
    StartsAlike (c :: first) (c :: second) := ⟨rfl, rfl, rfl⟩

theorem StartsAlike.of_isNameStart {c d : Char} (one : isNameStart c) (two : isNameStart d)
    (first second : List Char) : StartsAlike (c :: first) (d :: second) where
  digit := by simp [startsWith, isDigit_of_isNameStart one, isDigit_of_isNameStart two]
  name := by simp [startsWith, isNameChar, one, two]
  operator := by
    simp [startsWith, isOperatorChar_of_isNameStart one, isOperatorChar_of_isNameStart two]

theorem StartsAlike.prepend {first second : List Char} (alike : StartsAlike first second)
    (lead : List Char) : StartsAlike (lead ++ first) (lead ++ second) := by
  cases lead with
  | nil => exact alike
  | cons c more => exact .of_head c _ _

theorem Admitted.of_startsAlike {kind : TokenKind} {text next other : List Char}
    (admitted : Admitted kind text next) (alike : StartsAlike next other) :
    Admitted kind text other := by
  apply admitted.of_stops
  simp [gluing, alike.digit, alike.name, alike.operator]

section Recast

variable (ids : List Int) (newName : String)

/-- The edits that give the names with some ids a new text. -/
def editsOf (tokens : List Token) : List TextEdit :=
  (tokens.filter fun token => token.kind = .name ∧ token.id ∈ ids).map (⟨·.range, newName⟩)

def Lexeme.recast (id : Nat) (lexeme : Lexeme) : Lexeme :=
  if lexeme.kind = .name ∧ (id : Int) ∈ ids then { lexeme with text := newName.toList } else lexeme

/-- Give the lexemes with some ids, where names, a new text. The first has number `id`. -/
def recastFrom : Nat → List Lexeme → List Lexeme
  | _, [] => []
  | id, lexeme :: rest => lexeme.recast ids newName id :: recastFrom (id + 1) rest

theorem recastFrom_length (id : Nat) (lexemes : List Lexeme) :
    (recastFrom ids newName id lexemes).length = lexemes.length := by
  induction lexemes generalizing id with
  | nil => rfl
  | cons lexeme rest ih => simp [recastFrom, ih]

/-- The tokens of recast lexemes are the recast tokens, wherever they come to stand. -/
theorem placeLexemes_recastFrom (row id column place : Nat) (lexemes : List Lexeme) :
    (placeLexemes row id place (recastFrom ids newName id lexemes)).map Token.flat =
      (placeLexemes row id column lexemes).map (recasting ids newName).token := by
  induction lexemes generalizing id column place with
  | nil => rfl
  | cons lexeme rest ih =>
    simp only [recastFrom, placeLexemes, List.map_cons]
    rw [ih (id + 1) _ _]
    congr 1
    by_cases chosen : lexeme.kind = .name ∧ (id : Int) ∈ ids
    · simp only [recasting, Token.recast, Lexeme.recast, chosen, and_self, if_true, String.ofList_toList]
      rfl
    · simp only [recasting, Token.recast, Lexeme.recast, chosen, if_false]
      rfl

variable {newName}

theorem editsOf_append (first second : List Token) :
    editsOf ids newName (first ++ second) = editsOf ids newName first ++ editsOf ids newName second := by
  simp [editsOf]

theorem mem_editsOf {tokens : List Token} {edit : TextEdit} (member : edit ∈ editsOf ids newName tokens) :
    ∃ token ∈ tokens, edit.range = token.range ∧ token.kind = .name := by
  obtain ⟨token, inside, rfl⟩ := List.mem_map.mp member
  obtain ⟨present, chosen⟩ := List.mem_filter.mp inside
  exact ⟨token, present, rfl, (of_decide_eq_true chosen).1⟩

theorem editsOf_placeLexemes_behind {row id column : Nat} {lexemes : List Lexeme} :
    ∀ edit ∈ editsOf ids newName (placeLexemes row id column lexemes),
      edit.range.start.line = row ∧ (column : Int) ≤ edit.range.start.column := by
  intro edit member
  obtain ⟨token, inside, range, _⟩ := mem_editsOf ids member
  obtain ⟨piece, bound, _⟩ := mem_placeLexemes inside (List.replicate _ ' ') [] List.length_replicate
  rw [range]
  exact ⟨piece.line.1, bound⟩

/-- Editing a line gives the line of the recast lexemes. -/
theorem rewriteLine_spelled {lexemes : List Lexeme} {trail : List Char}
    (lawful : Lawful lexemes trail) (row id column : Nat) :
    rewriteLine (editsOf ids newName (placeLexemes row id column lexemes)) ⟨row, column⟩
        (spelled lexemes trail) =
      spelled (recastFrom ids newName id lexemes) trail := by
  induction lexemes generalizing id column with
  | nil =>
    have copied : rewriteLine [] ⟨row, column⟩ (trail ++ []) = trail ++ [] :=
      rewriteLine_copied (by simp) []
    rwa [List.append_nil] at copied
  | cons lexeme rest ih =>
    obtain ⟨_, admitted, later⟩ := lawful
    obtain ⟨c, more, text, _⟩ := admitted.starts
    have behind := @editsOf_placeLexemes_behind ids newName row (id + 1)
      (column + lexeme.gap.length + lexeme.text.length) rest
    have follows := ih later (id + 1) (column + lexeme.gap.length + lexeme.text.length)
    generalize tail : editsOf ids newName (placeLexemes row (id + 1)
      (column + lexeme.gap.length + lexeme.text.length) rest) = edits at behind follows
    simp only [Int.natCast_add] at behind follows
    have behindGap : ∀ edit ∈ edits, edit.range.start.line = row ∧
        (column : Int) + lexeme.gap.length ≤ edit.range.start.column := by
      intro edit member
      obtain ⟨line, order⟩ := behind edit member
      exact ⟨line, by omega⟩
    by_cases chosen : lexeme.kind = .name ∧ (id : Int) ∈ ids
    · have cons : editsOf ids newName (placeLexemes row id column (lexeme :: rest)) =
          [⟨.ofText ⟨row, column + lexeme.gap.length⟩ (String.ofList lexeme.text), newName⟩]
            ++ edits := by
        rw [← tail]
        simp [editsOf, placeLexemes, chosen]
      rw [cons, spelled, rewriteLine_copied, rewriteLine_replaced rfl (by simp [text]) behind, follows]
      · simp [recastFrom, Lexeme.recast, chosen, spelled]
      · exact List.forall_mem_cons.mpr ⟨⟨rfl, Int.le_refl _⟩, behindGap⟩
    · have cons : editsOf ids newName (placeLexemes row id column (lexeme :: rest)) = edits := by
        rw [← tail]
        simp [editsOf, placeLexemes, chosen]
      rw [cons, spelled, rewriteLine_copied behindGap, rewriteLine_copied behind, follows]
      simp [recastFrom, Lexeme.recast, chosen, spelled]

/-- An edit changes the line that it is on. -/
theorem rewriteLines_editsOf (id row : Nat) (line : List Char) (rest : List (List Char)) :
    rewriteLines (editsOf ids newName (linesTokens id row (line :: rest))) ⟨row, 0⟩ (line :: rest) =
      rewriteLine (editsOf ids newName (lineTokens id row line)) ⟨row, 0⟩ line ::
        rewriteLines (editsOf ids newName
          (linesTokens (id + (lineTokens id row line).length) (row + 1) rest)) ⟨(row + 1 : Nat), 0⟩
          rest := by
  rw [linesTokens, editsOf_append, rewriteLines]
  congr 1
  · refine rewriteLine_congr (fun column _ => Idle.append_right (.of_behind ?_) _) line
    intro edit member
    obtain ⟨token, inside, range, _⟩ := mem_editsOf ids member
    obtain ⟨place, _, _, piece, _⟩ := mem_linesTokens inside
    rw [range, Position.lt_iff, piece.line.1]
    exact .inl (by simp only; omega)
  · refine rewriteLines_congr (fun other order => Idle.append_left (.of_before ?_) _) rest
    intro edit member
    obtain ⟨token, inside, range, _⟩ := mem_editsOf ids member
    obtain ⟨start, stop⟩ := (mem_lineTokens inside).1.line
    rw [Position.le_iff] at order
    rw [range, Position.lt_iff, Position.le_iff, start, stop]
    simp only [Position.below] at order
    omega

section Valid

variable (valid : isValidName newName)
include valid

theorem spelled_startsAlike {lexemes : List Lexeme} {trail : List Char} (lawful : Lawful lexemes trail)
    (id : Nat) : StartsAlike (spelled lexemes trail)
      (spelled (recastFrom ids newName id lexemes) trail) := by
  cases lexemes with
  | nil => exact .refl trail
  | cons lexeme rest =>
    obtain ⟨_, admitted, _⟩ := lawful
    by_cases chosen : lexeme.kind = .name ∧ (id : Int) ∈ ids
    · rw [chosen.1] at admitted
      obtain ⟨⟨c, more, text, start⟩, _⟩ := admitted.name_parts
      obtain ⟨d, others, spell, initial, _⟩ := exists_of_isValidName valid
      simp only [recastFrom, Lexeme.recast, chosen, spelled, text, spell]
      exact .prepend (.of_isNameStart start initial _ _) _
    · obtain ⟨c, more, text, _⟩ := admitted.starts
      simp only [recastFrom, Lexeme.recast, chosen, if_false, spelled, text]
      exact .prepend (.of_head c _ _) _

/-- A name may take the place of a name. -/
theorem Lawful.recastFrom {lexemes : List Lexeme} {trail : List Char} (lawful : Lawful lexemes trail)
    (id : Nat) : Lawful (recastFrom ids newName id lexemes) trail := by
  induction lexemes generalizing id with
  | nil => exact lawful
  | cons lexeme rest ih =>
    obtain ⟨gap, admitted, later⟩ := lawful
    have follows := admitted.of_startsAlike (spelled_startsAlike ids valid later (id + 1))
    unfold LineScript.recastFrom Lexeme.recast
    split
    · next chosen =>
      rw [chosen.1] at follows
      exact ⟨gap, chosen.1 ▸ admitted_of_isValidName valid follows.name_parts.2, ih later (id + 1)⟩
    · exact ⟨gap, follows, ih later (id + 1)⟩

/-- Editing a line recasts its tokens. -/
theorem lineTokens_rewriteLine (id row : Nat) (line : List Char) :
    (lineTokens id row (rewriteLine (editsOf ids newName (lineTokens id row line)) ⟨row, 0⟩ line)).map
        Token.flat =
      (lineTokens id row line).map (recasting ids newName).token := by
  by_cases filled : line = []
  · subst filled
    rfl
  obtain ⟨lawful, spell⟩ := scanLine_lawful line
  have lawful' := lawful.recastFrom ids valid id
  have tokens := lineTokens_of_ne_nil filled id row
  have edits : editsOf ids newName (lineTokens id row line) =
      editsOf ids newName (placeLexemes row id 0 (scanLine line).1) := by
    rw [tokens, editsOf_append]
    simp [editsOf]
  have written : rewriteLine (editsOf ids newName (lineTokens id row line)) ⟨row, 0⟩ line =
      spelled (recastFrom ids newName id (scanLine line).1) (scanLine line).2 := by
    have whole : _ = spelled (recastFrom ids newName id (scanLine line).1) (scanLine line).2 :=
      rewriteLine_spelled ids lawful row id 0
    rw [spell, ← edits] at whole
    exact whole
  have filled' : spelled (recastFrom ids newName id (scanLine line).1) (scanLine line).2 ≠ [] := by
    intro empty
    obtain ⟨none, trail⟩ := lawful'.eq_nil_of_spelled empty
    have length := recastFrom_length ids newName id (scanLine line).1
    rw [none, List.length_nil, eq_comm, List.length_eq_zero_iff] at length
    rw [length, trail] at spell
    exact filled spell.symm
  rw [written, lineTokens_of_ne_nil filled', scanLine_of_lawful lawful', tokens, List.map_append,
    List.map_append, placeLexemes_recastFrom ids newName row id 0 0, recastFrom_length]
  rfl

/-- Editing some lines recasts their tokens. -/
theorem linesTokens_rewriteLines (id row : Nat) (lines : List (List Char)) :
    (linesTokens id row
        (rewriteLines (editsOf ids newName (linesTokens id row lines)) ⟨row, 0⟩ lines)).map Token.flat =
      (linesTokens id row lines).map (recasting ids newName).token := by
  induction lines generalizing id row with
  | nil => rfl
  | cons line rest ih =>
    have first := lineTokens_rewriteLine ids valid id row line
    have others := ih (id + (lineTokens id row line).length) (row + 1)
    have length := congrArg List.length first
    rw [List.length_map, List.length_map] at length
    rw [rewriteLines_editsOf, linesTokens, linesTokens, List.map_append, List.map_append, length, first,
      others]

theorem inline_editsOf (tokens : List Token) :
    ∀ edit ∈ editsOf ids newName tokens, Inline edit.newText.toList := by
  intro edit member
  obtain ⟨token, _, rfl⟩ := List.mem_map.mp member
  exact inline_of_isValidName valid

/-- Editing a text recasts its tokens. -/
theorem tokenize_applyEdits (source : String) :
    (tokenize (applyEdits source (editsOf ids newName (tokenize source)))).map Token.flat =
      (tokenize source).map (recasting ids newName).token := by
  have edits : editsOf ids newName (tokenize source) =
      editsOf ids newName (linesTokens 0 0 (splitLines source.toList)) := by
    rw [tokenize, editsOf_append]
    simp [editsOf]
  have lines := splitLines_rewriteFrom (inline_editsOf ids valid (tokenize source)) ⟨0, 0⟩ source.toList
  rw [edits] at lines
  have tokens : (linesTokens 0 0 (rewriteLines (editsOf ids newName
      (linesTokens 0 0 (splitLines source.toList))) ⟨0, 0⟩ (splitLines source.toList))).map Token.flat =
        (linesTokens 0 0 (splitLines source.toList)).map (recasting ids newName).token :=
    linesTokens_rewriteLines ids valid 0 0 _
  have length := congrArg List.length tokens
  rw [List.length_map, List.length_map] at length
  rw [edits]
  simp only [tokenize, applyEdits, String.toList_ofList, lines, List.map_append, tokens, length,
    rewriteLines_length]
  rfl

end Valid

end Recast

end LineScript
