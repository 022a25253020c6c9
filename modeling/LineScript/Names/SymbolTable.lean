import LineScript.Fault
import LineScript.OrderedMap
import LineScript.Slot

namespace LineScript

/-- A declared name and the tokens that stand for it. -/
structure Symbol where
  id : Int
  name : String
  definitions : List Int
  references : List Int
  deriving DecidableEq

/-- Definitions first, then references. -/
def Symbol.occurrences (symbol : Symbol) : List Int := symbol.definitions ++ symbol.references

/-- All symbols of a document, and which symbol each token stands for. -/
@[ext]
structure SymbolTable where
  symbols : List Symbol
  owners : OrderedMap Int Int
  deriving DecidableEq

namespace SymbolTable

def size (table : SymbolTable) : Nat := table.symbols.length

def symbol (table : SymbolTable) (id : Int) : Except Fault Symbol :=
  match (slot? table.symbols.length id).bind (table.symbols[·]?) with
  | none => .error .indexOutside
  | some symbol => .ok symbol

def symbolOf (table : SymbolTable) (token : Int) : Except Fault (Option Symbol) :=
  match table.owners.get? token with
  | none => .ok none
  | some id => (table.symbol id).map some

def named (table : SymbolTable) (name : String) : List Symbol :=
  table.symbols.filter (·.name = name)

/-- The owned tokens in increasing order, each with its symbol. -/
def ownersById (table : SymbolTable) : List (Int × Int) :=
  table.owners.entries.mergeSort (·.1 ≤ ·.1)

end SymbolTable

/-- A symbol table while it is made. The names of the symbols, their definitions and their references
in the order of discovery are kept side by side. -/
@[ext]
structure TableDraft where
  names : List String
  definitions : List (List Int)
  references : List (List Int)
  owners : OrderedMap Int Int
  deriving DecidableEq

namespace TableDraft

def empty : TableDraft := ⟨[], [], [], .empty⟩

/-- Make a new symbol, defined at a name token. Symbols are numbered in this order. -/
def declare (token : Token) : EStateM Fault TableDraft Int := do
  if token.kind ≠ .name then throw (.cannotDeclare token.text token.kind)
  let id : Int := (← get).names.length
  modify fun draft => { draft with names := draft.names ++ [token.text] }
  modify fun draft => { draft with definitions := draft.definitions ++ [[token.id]] }
  modify fun draft => { draft with references := draft.references ++ [[]] }
  modify fun draft => { draft with owners := draft.owners.put token.id id }
  return id

/-- Add to the references of a symbol. -/
def addReference (symbol token : Int) : EStateM Fault TableDraft Unit := do
  match slot? (← get).references.length symbol with
  | none => throw .indexOutside
  | some place =>
    modify fun draft => { draft with references := draft.references.modify place (· ++ [token]) }

/-- Let a name token stand for a symbol. -/
def refer (symbol : Int) (token : Token) : EStateM Fault TableDraft Unit := do
  if token.kind ≠ .name then throw (.cannotRefer token.text token.kind)
  addReference symbol token.id
  modify fun draft => { draft with owners := draft.owners.put token.id symbol }

def build (draft : TableDraft) : SymbolTable :=
  let parts := draft.names.zip (draft.definitions.zip draft.references)
  ⟨parts.mapIdx fun id (name, definitions, references) =>
    ⟨id, name, definitions, references.mergeSort (· ≤ ·)⟩, draft.owners⟩

section Calls

variable (draft : TableDraft) {token : Token}

theorem declare_name (name : token.kind = .name) :
    (declare token).run draft = .ok (draft.names.length : Int)
      ⟨draft.names ++ [token.text], draft.definitions ++ [[token.id]], draft.references ++ [[]],
        draft.owners.put token.id draft.names.length⟩ := by
  rw [declare, if_neg (not_not_intro name)]
  rfl

theorem declare_other (other : token.kind ≠ .name) :
    (declare token).run draft = .error (.cannotDeclare token.text token.kind) draft := by
  rw [declare, if_pos other]
  rfl

variable {draft}

theorem refer_known (name : token.kind = .name) {symbol : Int} {place : Nat}
    (known : slot? draft.references.length symbol = some place) :
    (refer symbol token).run draft = .ok ()
      ⟨draft.names, draft.definitions, draft.references.modify place (· ++ [token.id]),
        draft.owners.put token.id symbol⟩ := by
  have added : (addReference symbol token.id).run draft =
      .ok () { draft with references := draft.references.modify place (· ++ [token.id]) } := by
    rw [addReference, EStateM.run_bind, EStateM.run_get]
    simp only [known]
    rfl
  rw [refer, if_neg (not_not_intro name), EStateM.run_bind, added]
  rfl

theorem refer_unknown (name : token.kind = .name) {symbol : Int}
    (unknown : slot? draft.references.length symbol = none) :
    (refer symbol token).run draft = .error .indexOutside draft := by
  have missing : (addReference symbol token.id).run draft = .error .indexOutside draft := by
    rw [addReference, EStateM.run_bind, EStateM.run_get]
    simp only [unknown]
    rfl
  rw [refer, if_neg (not_not_intro name), EStateM.run_bind, missing]

variable (draft) in
theorem refer_other (other : token.kind ≠ .name) (symbol : Int) :
    (refer symbol token).run draft = .error (.cannotRefer token.text token.kind) draft := by
  rw [refer, if_pos other]
  rfl

end Calls

end TableDraft

end LineScript
