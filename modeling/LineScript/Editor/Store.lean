import LineScript.Document.Cursor
import LineScript.Log

namespace LineScript

/-- One version of an open document. -/
structure Snapshot where
  uri : String
  version : Option Int
  text : String
  model : Model

/-- The open documents, each with its latest snapshot. -/
structure Store where
  blockScoping : Bool
  snapshots : OrderedMap String Snapshot

namespace Store

def empty (blockScoping : Bool) : Store := ⟨blockScoping, .empty⟩

def get? (store : Store) (uri : String) : Option Snapshot := store.snapshots.get? uri

def contains (store : Store) (uri : String) : Bool := store.snapshots.contains uri

def uris (store : Store) : List String := store.snapshots.keys

def size (store : Store) : Nat := store.snapshots.size

def versionText : Option Int → String
  | none => "None"
  | some version => toString version

def log (level : Level) (message : String) : LogRecord :=
  ⟨level, "curage_lsp.documents", message⟩

/-- The version that makes an update stale: a known one beyond the update's own. -/
def newerVersion? (store : Store) (uri : String) (version : Option Int) : Option (Int × Int) := do
  let stored ← (← store.get? uri).version
  let offered ← version
  if offered < stored then some (offered, stored) else none

/-- Analyse a text and make it the current snapshot, unless the stored version is newer. -/
def update (store : Store) (uri : String) (version : Option Int) (text : String) :
    Except Fault (Option Snapshot × Store × LogRecord) :=
  match store.newerVersion? uri version with
  | some (offered, stored) =>
    .ok (none, store, log .warning ("ignoring stale update for " ++ uri ++ " (version " ++
      toString offered ++ " < " ++ toString stored ++ ")"))
  | none => do
    let model ← analyze text store.blockScoping
    let snapshot : Snapshot := ⟨uri, version, text, model⟩
    return (some snapshot, { store with snapshots := store.snapshots.put uri snapshot },
      log .info ("analysed " ++ uri ++ " v" ++ versionText version ++ ": " ++
        toString model.table.size ++ " symbols, " ++ toString model.diagnostics.length ++
        " diagnostics"))

/-- Forget a document. -/
def close (store : Store) (uri : String) : Bool × Store :=
  (store.contains uri, { store with snapshots := store.snapshots.erase uri })

end Store

end LineScript
