import LineScript.Diagnostic
import LineScript.Names.Scope
import LineScript.Names.SymbolTable
import LineScript.Tree.Node

namespace LineScript

/-- What a program does with names, as seen by a walk from left to right. -/
inductive NameEvent where
  | declare (token : Token)
  | refer (token : Token)
  | enter
  | leave
  /-- Something in the tree that the walk does not know. -/
  | reject (label : String)

namespace Node

mutual

/-- The name events of a tree. A value is used before the name that it is bound to, and what is
left of failed constructs does nothing. -/
def events : Node → List NameEvent
  | leaf _ => [.reject "Token"]
  | unknown => [.reject "Node"]
  | error _ _ _ => []
  | atomic token => if token.kind = .name then [.refer token] else []
  | binary left _ right => left.events ++ right.events
  | call callee _ none _ => callee.events
  | call callee _ (some argument) _ => callee.events ++ argument.events
  | binding .introduce _ name _ value _ => value.events ++ [.declare name]
  | binding .assign _ name _ value _ => value.events ++ [.refer name]
  | binding .plain _ _ _ value _ => value.events
  | expression value _ => value.events
  | endMarker _ _ => []
  | block _ _ condition _ body _ => condition.events ++ .enter :: (eventsOf body ++ [.leave])
  | program statements _ => eventsOf statements

def eventsOf : List Node → List NameEvent
  | [] => []
  | node :: rest => node.events ++ eventsOf rest

end

end Node

/-- The state of name resolution. -/
structure Resolver where
  scope : Scope
  table : TableDraft
  diagnostics : List Diagnostic

namespace Resolver

def start : Resolver := ⟨.empty, .empty, []⟩

def declare (resolver : Resolver) (token : Token) : Except Fault Resolver :=
  match (TableDraft.declare token).run resolver.table with
  | .error fault _ => .error fault
  | .ok symbol table => do
    let scope ← resolver.scope.define (.text token.text) symbol
    return { resolver with scope, table }

/-- Let a token stand for the symbol that its text names here, or report that there is none. -/
def refer (resolver : Resolver) (token : Token) : Except Fault Resolver :=
  match resolver.scope.lookup? token.text with
  | none => .ok { resolver with
      diagnostics := resolver.diagnostics ++ [.warning (undefinedMessage token.text) token.range] }
  | some symbol =>
    match (TableDraft.refer symbol token).run resolver.table with
    | .error fault _ => .error fault
    | .ok _ table => .ok { resolver with table }

/-- Leave a block. Under block scoping its bindings end with it. -/
def leave (resolver : Resolver) (blockScoping : Bool) : Except Fault Resolver :=
  if blockScoping then .ok { resolver with scope := resolver.scope.pop }
  else do
    let scope ← resolver.scope.merge
    return { resolver with scope }

def step (blockScoping : Bool) (resolver : Resolver) : NameEvent → Except Fault Resolver
  | .declare token => resolver.declare token
  | .refer token => resolver.refer token
  | .enter => .ok { resolver with scope := resolver.scope.push }
  | .leave => resolver.leave blockScoping
  | .reject label => .error (.unknownNode label)

end Resolver

/-- Resolve the names of a tree: its symbols, and the names that nothing defines. -/
def resolve (root : Node) (blockScoping : Bool) : Except Fault (SymbolTable × List Diagnostic) := do
  let resolver ← root.events.foldlM (Resolver.step blockScoping) Resolver.start
  return (resolver.table.build, resolver.diagnostics)

end LineScript
