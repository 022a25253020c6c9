import LineScript.Document.Model

namespace LineScript

inductive HighlightKind where
  | read
  | write
  deriving DecidableEq

namespace HighlightKind

def label : HighlightKind → String
  | read => "READ"
  | write => "WRITE"

/-- The number that editors know a kind of highlight by. -/
def number : HighlightKind → Nat
  | read => 2
  | write => 3

end HighlightKind

structure Highlight where
  kind : HighlightKind
  range : Range
  deriving DecidableEq

structure TextEdit where
  range : Range
  newText : String
  deriving DecidableEq

namespace Model

/-- The token at a position, with the nodes around it. -/
def locate (model : Model) (position : Position) : Except Fault (Option Hit) :=
  model.root.locate position

def tokenAt (model : Model) (position : Position) : Except Fault (Option Token) := do
  let hit ← model.locate position
  return hit.map (·.token)

/-- The symbol that a token stands for. -/
def symbolOfToken (model : Model) (token : Token) : Except Fault (Option Symbol) :=
  if token.kind = .name then model.table.symbolOf token.id else .ok none

/-- The symbol named at a position. -/
def symbolAt (model : Model) (position : Position) : Except Fault (Option Symbol) := do
  match ← model.tokenAt position with
  | none => return none
  | some token => model.symbolOfToken token

/-- All occurrences of the symbol at a position: the places where it is defined, then those where
it is used. -/
def highlights (model : Model) (position : Position) : Except Fault (List Highlight) := do
  match ← model.symbolAt position with
  | none => return []
  | some symbol =>
    let writes ← model.rangesOf symbol.definitions
    let reads ← model.rangesOf symbol.references
    return writes.map (⟨.write, ·⟩) ++ reads.map (⟨.read, ·⟩)

/-- The edits that give the symbol at a position a new name, which is not checked here. -/
def renameEdits (model : Model) (position : Position) (newName : String) :
    Except Fault (Option (List TextEdit)) := do
  match ← model.symbolAt position with
  | none => return none
  | some symbol =>
    let ranges ← model.rangesOf symbol.occurrences
    return some (ranges.map (⟨·, newName⟩))

/-- Where the symbol at a position is used and, if wanted, where it is declared. -/
def references (model : Model) (position : Position) (withDeclaration : Bool) :
    Except Fault (List Range) := do
  match ← model.symbolAt position with
  | none => return []
  | some symbol =>
    model.rangesOf (if withDeclaration then symbol.occurrences else symbol.references)

/-- The range of the name at a position, if it can be renamed. -/
def renameRange (model : Model) (position : Position) : Except Fault (Option Range) := do
  match ← model.tokenAt position with
  | none => return none
  | some token =>
    let symbol ← model.symbolOfToken token
    return symbol.map fun _ => token.range

/-- Every declared symbol, in the order of declaration. -/
def declared (model : Model) : List Symbol := model.table.symbols

end Model

end LineScript
