import LineScript.Names.Resolution
import LineScript.Parsing.Progress
import LineScript.Source.Lines
import LineScript.Tree.Hit

namespace LineScript

/-- Everything known about one text: its lines, tokens and tree, its symbols, and what is wrong
with its shape and with its names. -/
structure Model where
  lines : List String
  tokens : List Token
  root : Node
  shapeDiagnostics : List Diagnostic
  table : SymbolTable
  nameDiagnostics : List Diagnostic

/-- Analyse a text. -/
def analyze (source : String) (blockScoping : Bool) : Except Fault Model := do
  let tokens := tokenize source
  let (root, shapeDiagnostics) := parseTokens tokens
  let (table, nameDiagnostics) ← resolve root blockScoping
  return { lines := linesOf source, tokens, root, shapeDiagnostics, table, nameDiagnostics }

namespace Model

/-- Diagnostics of the shape, then those of the names. -/
def diagnostics (model : Model) : List Diagnostic :=
  model.shapeDiagnostics ++ model.nameDiagnostics

/-- The token with a given id, which is its place in the token list. -/
def token (model : Model) (id : Int) : Except Fault Token :=
  match (slot? model.tokens.length id).bind (model.tokens[·]?) with
  | none => .error .indexOutside
  | some token => .ok token

def rangesOf (model : Model) (ids : List Int) : Except Fault (List Range) :=
  ids.mapM fun id => (model.token id).map (·.range)

end Model

end LineScript
