import LineScript.Editor.Store
import LineScript.Editor.Wire
import LineScript.Settings

namespace LineScript

def serverName : String := "curage-ls"

def serverVersion : String := "0.3.0"

/-- Why a request is turned down. -/
inductive Refusal where
  | invalidName (name : String)
  | fault (fault : Fault)
  deriving DecidableEq

/-- What is said of a text that is no name. -/
def invalidNameMessage (name : String) : String :=
  "'" ++ name ++ "' is not a valid name."

/-- The diagnostics of a document, sent to the editor. -/
structure Publication where
  uri : String
  version : Option Int
  diagnostics : List WireDiagnostic
  deriving DecidableEq

/-- A server at work. -/
structure Session where
  store : Store

/-- The answer to a request: the value or a refusal, the session behind it, and what was sent and
logged on the way. -/
structure Reply (α : Type) where
  outcome : Except Refusal α
  session : Session
  published : List Publication
  logs : List LogRecord

/-- An edit of one version of a document. -/
structure DocumentEdit where
  uri : String
  version : Option Int
  edits : List (WireRange × String)
  deriving DecidableEq

/-- A declared symbol as an outline shows it. -/
structure OutlineEntry where
  name : String
  range : WireRange
  detail : String
  deriving DecidableEq

/-- The number that editors know variables by. -/
def variableKind : Nat := 13

namespace Session

/-- A server with no document. Its scoping is the one asked for, else the one of the settings. -/
def start (blockScoping : Option Bool) (vars : Variables) : Except SettingError Session :=
  match blockScoping with
  | some flag => .ok ⟨.empty flag⟩
  | none => do return ⟨.empty (← Settings.blockScoping vars)⟩

def log (level : Level) (message : String) : LogRecord :=
  ⟨level, "curage_lsp.server", message⟩

/-- A reply that changes nothing. -/
def answer {α : Type} (session : Session) (outcome : Except Refusal α) (logs : List LogRecord) :
    Reply α :=
  ⟨outcome, session, [], logs⟩

def didInitialize (session : Session) (client : Option String) : Reply Unit :=
  session.answer (.ok ()) [log .info ("initialize from " ++ client.getD "unknown client" ++
    " (block scoping: " ++ flagText session.store.blockScoping ++ ")")]

def shutdown (session : Session) : Reply Unit :=
  session.answer (.ok ()) [log .info ("shutdown requested; " ++ toString session.store.size ++
    " document(s) open")]

section Notices

variable (codec : Codec)

/-- What is published for a snapshot. -/
def publication (snapshot : Snapshot) : Publication :=
  ⟨snapshot.uri, snapshot.version,
    snapshot.model.diagnostics.map (WireDiagnostic.ofDiagnostic codec snapshot.model.lines)⟩

/-- Store a text and publish its diagnostics, unless it is stale. -/
def update (session : Session) (uri : String) (version : Option Int) (text : String) :
    Reply Unit :=
  match session.store.update uri version text with
  | .error fault => session.answer (.error (.fault fault)) []
  | .ok (none, store, record) => ⟨.ok (), ⟨store⟩, [], [record]⟩
  | .ok (some snapshot, store, record) =>
    ⟨.ok (), ⟨store⟩, [publication codec snapshot], [record]⟩

def didOpen (session : Session) (uri : String) (version : Option Int) (text : String) :
    Reply Unit :=
  session.update codec uri version text

/-- Take over the last of the texts sent. With none the stored text is analysed again. -/
def didChange (session : Session) (uri : String) (version : Option Int) (texts : List String) :
    Reply Unit :=
  let stored := (session.store.get? uri).map (·.text)
  session.update codec uri version ((texts.getLast? <|> stored).getD "")

end Notices

/-- Forget a document and take its diagnostics back. -/
def didClose (session : Session) (uri : String) : Reply Unit :=
  ⟨.ok (), ⟨(session.store.close uri).2⟩, [⟨uri, none, []⟩], []⟩

def lift {α : Type} : Except Fault α → Except Refusal α
  | .ok value => .ok value
  | .error fault => .error (.fault fault)

/-- Answer a question about a place in an open document. -/
def atCursor {α : Type} (codec : Codec) (session : Session) (uri : String) (wire : WirePosition)
    (ask : Snapshot → Position → Except Refusal (Option α)) : Reply (Option α) :=
  match session.store.get? uri with
  | none => session.answer (.ok none) [log .debug ("query on unknown document " ++ uri)]
  | some snapshot => session.answer (ask snapshot (codec.toPosition snapshot.model.lines wire)) []

/-- Refuse a new name that would not read as one. -/
def checkNewName (name : String) : Except Refusal String :=
  if isValidName name then .ok name else .error (.invalidName name)

end Session

namespace Snapshot

open Session

variable (codec : Codec)

/-- What is sent of the highlights at a place: nothing if there are none. -/
def highlight (snapshot : Snapshot) (place : Position) :
    Except Refusal (Option (List (HighlightKind × WireRange))) := do
  let highlights ← lift (snapshot.model.highlights place)
  return if highlights.isEmpty then none else some (highlights.map fun mark =>
    (mark.kind, codec.ofRange snapshot.model.lines mark.range))

def references (withDeclaration : Bool) (snapshot : Snapshot) (place : Position) :
    Except Refusal (Option (List (String × WireRange))) := do
  let ranges ← lift (snapshot.model.references place withDeclaration)
  return some (ranges.map fun range => (snapshot.uri, codec.ofRange snapshot.model.lines range))

def prepareRename (snapshot : Snapshot) (place : Position) : Except Refusal (Option WireRange) := do
  let range ← lift (snapshot.model.renameRange place)
  return range.map (codec.ofRange snapshot.model.lines)

/-- Rename the symbol at a place. Only a rename that would edit something is checked. -/
def rename (newName : String) (snapshot : Snapshot) (place : Position) :
    Except Refusal (Option DocumentEdit) := do
  match ← lift (snapshot.model.renameEdits place newName) with
  | none => return none
  | some edits =>
    let _ ← checkNewName newName
    return some ⟨snapshot.uri, snapshot.version, edits.map fun edit =>
      (codec.ofRange snapshot.model.lines edit.range, edit.newText)⟩

end Snapshot

namespace Session

variable (codec : Codec)

def highlight (session : Session) (uri : String) (wire : WirePosition) :
    Reply (Option (List (HighlightKind × WireRange))) :=
  session.atCursor codec uri wire (Snapshot.highlight codec)

def references (session : Session) (uri : String) (wire : WirePosition) (withDeclaration : Bool) :
    Reply (Option (List (String × WireRange))) :=
  session.atCursor codec uri wire (Snapshot.references codec withDeclaration)

def prepareRename (session : Session) (uri : String) (wire : WirePosition) :
    Reply (Option WireRange) :=
  session.atCursor codec uri wire (Snapshot.prepareRename codec)

def rename (session : Session) (uri : String) (wire : WirePosition) (newName : String) :
    Reply (Option DocumentEdit) :=
  session.atCursor codec uri wire (Snapshot.rename codec newName)

def outlineEntry (model : Model) (symbol : Symbol) : Except Refusal OutlineEntry := do
  match ← lift (model.rangesOf symbol.definitions) with
  | [] => throw (.fault .indexOutside)
  | range :: _ =>
    return ⟨symbol.name, codec.ofRange model.lines range,
      toString symbol.references.length ++ " reference(s)"⟩

/-- The declared symbols of an open document. -/
def outline (session : Session) (uri : String) : Reply (Option (List OutlineEntry)) :=
  match session.store.get? uri with
  | none => session.answer (.ok none) []
  | some snapshot =>
    session.answer (do
      return some (← snapshot.model.declared.mapM (outlineEntry codec snapshot.model))) []

end Session

end LineScript
