import LineScript.Proofs.RenamingBack
import LineScript.Proofs.WireAnswers

namespace LineScript

/-- The tokens of a text that is one name and nothing else. -/
def nameAlone (name : String) : List Token :=
  [⟨0, .name, name, .ofText ⟨0, 0⟩ name, ""⟩, ⟨1, .endOfLine, "", .point ⟨0, name.length⟩, ""⟩,
    ⟨2, .endOfFile, "", .point ⟨0, name.length⟩, ""⟩]

theorem scanLine_name {name : String} (valid : isValidName name) :
    scanLine name.toList = ([⟨[], .name, name.toList⟩], []) := by
  have lawful : Lawful [⟨[], .name, name.toList⟩] [] :=
    ⟨List.forall_mem_nil _, admitted_of_isValidName valid rfl, List.forall_mem_nil _⟩
  simpa [spelled] using scanLine_of_lawful lawful

theorem tokenize_name {name : String} (valid : isValidName name) :
    tokenize name = nameAlone name := by
  obtain ⟨filled, plain⟩ := inline_of_isValidName valid
  have line : splitLines name.toList = [name.toList] :=
    splitLines_line fun feed => (plain _ feed).1 rfl
  have tokens : lineTokens 0 0 name.toList =
      [⟨0, .name, name, .ofText ⟨0, 0⟩ name, ""⟩, ⟨1, .endOfLine, "", .point ⟨0, name.length⟩, ""⟩] := by
    rw [lineTokens_of_ne_nil filled, scanLine_name valid, String.length_toList]
    simp [placeLexemes]
  simp [tokenize, line, linesTokens, tokens, nameAlone, String.length_toList]

/-- The names that a rename accepts are the texts that are read as one name. -/
theorem isValidName_iff_tokenize (text : String) : isValidName text ↔ tokenize text = nameAlone text := by
  refine ⟨tokenize_name, fun alone => ?_⟩
  have member : ⟨0, .name, text, .ofText ⟨0, 0⟩ text, ""⟩ ∈ tokenize text := by simp [alone, nameAlone]
  exact isValidName_of_mem (mem_linesTokens_of_mem member (by simp)) rfl

section Renaming

variable {codec : Codec}

/-- At a place in a text, a name is refused exactly if there is a symbol to rename and the name is none. -/
theorem Snapshot.rename_refuses_iff {snapshot : Snapshot} {blockScoping : Bool}
    (analyzed : analyze snapshot.text blockScoping = .ok snapshot.model) (place : Position)
    (newName refused : String) :
    snapshot.rename codec newName place = .error (.invalidName refused) ↔
      refused = newName ∧ (∃ symbol, snapshot.model.symbolAt place = .ok (some symbol)) ∧
        ¬ isValidName newName := by
  obtain ⟨found, named, _⟩ := (analyze_searchable analyzed).symbolAt_eq place
  cases found with
  | none =>
    have silent : snapshot.rename codec newName place = .ok none :=
      rename_eq_of_none ((analyze_searchable analyzed).answers_none named newName).2.2.1
    simp [silent, named]
  | some symbol =>
    obtain ⟨edits, renamed, _⟩ := exists_renameEdits analyzed named newName
    rw [rename_eq renamed]
    by_cases valid : isValidName newName
    · rw [if_pos valid]
      simp [valid]
    · rw [if_neg valid]
      simp [named, valid, eq_comm]

variable (codec) in
/-- The cursor is on a symbol of an open document. -/
def Session.OnSymbol (session : Session) (uri : String) (wire : WirePosition) : Prop :=
  ∃ snapshot symbol, session.store.get? uri = some snapshot ∧
    snapshot.model.symbolAt (codec.toPosition snapshot.model.lines wire) = .ok (some symbol)

/-- A request is refused for its new name by the text under its cursor, and by nothing else. -/
theorem Session.rename_refuses_iff {session : Session} {blockScoping : Bool} {uri : String}
    (analyzed : ∀ snapshot, session.store.get? uri = some snapshot →
      analyze snapshot.text blockScoping = .ok snapshot.model)
    (wire : WirePosition) (newName refused : String) :
    (session.rename codec uri wire newName).outcome = .error (.invalidName refused) ↔
      refused = newName ∧ session.OnSymbol codec uri wire ∧ ¬ isValidName newName := by
  cases stored : session.store.get? uri with
  | none =>
    have outcome : (session.rename codec uri wire newName).outcome = .ok none := by
      simp only [rename, atCursor, stored, answer]
    have off : ¬ session.OnSymbol codec uri wire := by
      rintro ⟨snapshot, _, found, _⟩
      cases stored.symm.trans found
    simp [outcome, off]
  | some snapshot =>
    have outcome : (session.rename codec uri wire newName).outcome =
        snapshot.rename codec newName (codec.toPosition snapshot.model.lines wire) :=
      congrArg (·.rename newName) (answersAt_eq codec stored wire)
    have on : session.OnSymbol codec uri wire ↔ ∃ symbol, snapshot.model.symbolAt
        (codec.toPosition snapshot.model.lines wire) = .ok (some symbol) := by
      simp [OnSymbol, stored]
    rw [outcome, on]
    exact Snapshot.rename_refuses_iff (analyzed snapshot stored) _ newName refused

end Renaming

/-- A text is a valid name exactly if it is read as one name that fills it. So whatever the editor has
reported, however it counts and wherever its cursor is, a rename is refused for its new name exactly if
the cursor is on a symbol and the new name is not read as one. -/
theorem rename_refuses_what_is_not_read_as_name (codec : Codec) (blockScoping : Bool)
    (notices : List Notice) :
    let session := (Session.follow codec ⟨.empty blockScoping⟩ notices).session
    (∀ text, isValidName text ↔ tokenize text = nameAlone text) ∧
      ∀ uri wire newName refused,
        (session.rename codec uri wire newName).outcome = .error (.invalidName refused) ↔
          refused = newName ∧ session.OnSymbol codec uri wire ∧
            tokenize newName ≠ nameAlone newName := by
  intro session
  refine ⟨isValidName_iff_tokenize, fun uri wire newName refused => ?_⟩
  have analyzed (snapshot : Snapshot) (stored : session.store.get? uri = some snapshot) :
      analyze snapshot.text blockScoping = .ok snapshot.model :=
    Session.follow_analyzed codec stored
  rw [Ne, ← isValidName_iff_tokenize]
  exact Session.rename_refuses_iff analyzed wire newName refused

end LineScript
