import LineScript.Proofs.Publishing
import LineScript.Proofs.Totality
import LineScript.Proofs.WireColumns

namespace LineScript

/-- What the editor is told about a place: the highlights, the references with and without the
declaration, the range to rename, and the edit for each new name. -/
structure CursorAnswers where
  highlight : Except Refusal (Option (List (HighlightKind × WireRange)))
  references : Bool → Except Refusal (Option (List (String × WireRange)))
  prepareRename : Except Refusal (Option WireRange)
  rename : String → Except Refusal (Option DocumentEdit)

section Answers

variable (codec : Codec)

def Snapshot.answersAt (snapshot : Snapshot) (place : Position) : CursorAnswers where
  highlight := snapshot.highlight codec place
  references withDeclaration := snapshot.references codec withDeclaration place
  prepareRename := snapshot.prepareRename codec place
  rename newName := snapshot.rename codec newName place

def Session.answersAt (session : Session) (uri : String) (wire : WirePosition) : CursorAnswers where
  highlight := (session.highlight codec uri wire).outcome
  references withDeclaration := (session.references codec uri wire withDeclaration).outcome
  prepareRename := (session.prepareRename codec uri wire).outcome
  rename newName := (session.rename codec uri wire newName).outcome

/-- A request about an open document is answered for the place that its position is read as. -/
theorem Session.answersAt_eq {session : Session} {uri : String} {snapshot : Snapshot}
    (stored : session.store.get? uri = some snapshot) (wire : WirePosition) :
    session.answersAt codec uri wire =
      snapshot.answersAt codec (codec.toPosition snapshot.model.lines wire) := by
  simp only [answersAt, highlight, references, prepareRename, rename, atCursor, stored, answer,
    Snapshot.answersAt]

end Answers

theorem charUnits_of_isNameChar {c : Char} (name : isNameChar c) : charUnits c = 1 := by
  have small : c.toNat ≤ 122 := by
    rcases Bool.or_eq_true_iff.mp name with start | digit
    · rcases isNameStart_iff_toNat.mp start with upper | lower | rfl
      · omega
      · omega
      · decide
    · have digits : 48 ≤ c.toNat ∧ c.toNat ≤ 57 := Char.isDigit_iff_toNat.mp digit
      omega
  rw [charUnits, if_neg (by omega)]

theorem Admitted.narrow {text next : List Char} (admitted : Admitted .name text next) :
    ∀ c ∈ text, charUnits c = 1 := by
  generalize name : TokenKind.name = kind at admitted
  cases admitted with
  | word start run _ =>
    refine List.forall_mem_cons.mpr ⟨charUnits_of_isNameChar ?_, fun d member => ?_⟩
    · simp [isNameChar, start]
    · exact charUnits_of_isNameChar (run d member)
  | _ => cases name

namespace Snapshot

variable {codec : Codec} {snapshot : Snapshot} {place : Position}

theorem rename_eq_of_none {newName : String}
    (core : snapshot.model.renameEdits place newName = .ok none) :
    snapshot.rename codec newName place = .ok none := by
  rw [rename, core]
  rfl

theorem rename_eq {newName : String} {edits : List TextEdit}
    (core : snapshot.model.renameEdits place newName = .ok (some edits)) :
    snapshot.rename codec newName place = if isValidName newName then
      .ok (some ⟨snapshot.uri, snapshot.version, edits.map fun edit =>
        (codec.ofRange snapshot.model.lines edit.range, edit.newText)⟩)
      else .error (.invalidName newName) := by
  rw [rename, core]
  by_cases valid : isValidName newName
  · rw [if_pos valid, Session.checkNewName, if_pos valid]
    rfl
  · rw [if_neg valid, Session.checkNewName, if_neg valid]
    rfl

end Snapshot

theorem analyze_lines {source : String} {blockScoping : Bool} {model : Model}
    (analyzed : analyze source blockScoping = .ok model) : model.lines = linesOf source := by
  cases (analyze_eq source blockScoping).symm.trans analyzed
  rfl

theorem analyze_plain {source : String} {blockScoping : Bool} {model : Model}
    (analyzed : analyze source blockScoping = .ok model) : ∀ line ∈ model.lines, '\n' ∉ line.toList := by
  rw [analyze_lines analyzed]
  exact linesOf_plain source

namespace Snapshot

variable {codec : Codec} {snapshot : Snapshot} {blockScoping : Bool}
  (analyzed : analyze snapshot.text blockScoping = .ok snapshot.model) {place : Position}
include analyzed

end Snapshot

namespace Model.Answers

variable {codec : Codec} {snapshot : Snapshot} {place : Position} {newName : String} {symbol : Symbol}
  {first : Range} {rest : List Range}
  (answers : snapshot.model.Answers place newName symbol first rest)
include answers

theorem rename_eq : snapshot.rename codec newName place = if isValidName newName then
    .ok (some ⟨snapshot.uri, snapshot.version, (first :: rest).map fun range =>
      (codec.ofRange snapshot.model.lines range, newName)⟩)
    else .error (.invalidName newName) := by
  rw [Snapshot.rename_eq answers.edits, List.map_map]
  rfl

end Model.Answers

namespace Snapshot

variable {codec : Codec} {snapshot : Snapshot} {blockScoping : Bool}
  (analyzed : analyze snapshot.text blockScoping = .ok snapshot.model) (counts : codec.CountsUnits)
include analyzed counts

end Snapshot

end LineScript
