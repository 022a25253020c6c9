import LineScript.Fault

namespace LineScript

inductive BindingForm where
  | introduce
  | assign
  | plain
  deriving DecidableEq

inductive BlockForm where
  | conditional
  | loop
  | plain
  deriving DecidableEq

/-- A part of a program. Trees built by hand may put any node where the grammar wants another, a
bare token included; `unknown` stands for a construct of no known form. -/
inductive Node where
  | leaf (token : Token)
  | unknown
  /-- What is left of a construct that could not be read, with the tokens it swallowed. -/
  | error (message : String) (range : Range) (skipped : List Token)
  | atomic (token : Token)
  | binary (left : Node) (operator : Token) (right : Node)
  | call (callee : Node) (opening : Token) (argument : Option Node) (closing : Node)
  | binding (form : BindingForm) (keyword name : Token) (equals : Option Token)
      (value terminator : Node)
  | expression (value terminator : Node)
  | endMarker (keyword : Token) (terminator : Option Token)
  | block (form : BlockForm) (keyword : Token) (condition headerEnd : Node) (body : List Node)
      (ending : Node)
  | program (statements : List Node) (eof : Token)

namespace Node

/-- The direct parts of a node, in source order. -/
def children : Node → List Node
  | leaf _ => []
  | unknown => []
  | error _ _ skipped => skipped.map leaf
  | atomic token => [leaf token]
  | binary left operator right => [left, leaf operator, right]
  | call callee opening argument closing =>
    callee :: leaf opening :: (argument.toList ++ [closing])
  | binding _ keyword name equals value terminator =>
    leaf keyword :: leaf name :: (equals.toList.map leaf ++ [value, terminator])
  | expression value terminator => [value, terminator]
  | endMarker keyword terminator => leaf keyword :: terminator.toList.map leaf
  | block _ keyword condition headerEnd body ending =>
    leaf keyword :: condition :: headerEnd :: (body ++ [ending])
  | program statements eof => statements ++ [leaf eof]

mutual

/-- Every token under a node, in source order. -/
def tokens : Node → List Token
  | leaf token => [token]
  | unknown => []
  | error _ _ skipped => skipped
  | atomic token => [token]
  | binary left operator right => left.tokens ++ operator :: right.tokens
  | call callee opening none closing => callee.tokens ++ opening :: closing.tokens
  | call callee opening (some argument) closing =>
    callee.tokens ++ opening :: (argument.tokens ++ closing.tokens)
  | binding _ keyword name equals value terminator =>
    keyword :: name :: (equals.toList ++ (value.tokens ++ terminator.tokens))
  | expression value terminator => value.tokens ++ terminator.tokens
  | endMarker keyword terminator => keyword :: terminator.toList
  | block _ keyword condition headerEnd body ending =>
    keyword :: (condition.tokens ++ (headerEnd.tokens ++ (tokensOf body ++ ending.tokens)))
  | program statements eof => tokensOf statements ++ [eof]

def tokensOf : List Node → List Token
  | [] => []
  | node :: rest => node.tokens ++ tokensOf rest

end

mutual

/-- A node and all nodes below it, each before its parts. Bare tokens do not count. -/
def walk : Node → List Node
  | leaf _ => []
  | unknown => [unknown]
  | error message range skipped => [error message range skipped]
  | atomic token => [atomic token]
  | binary left operator right => binary left operator right :: (left.walk ++ right.walk)
  | call callee opening none closing =>
    call callee opening none closing :: (callee.walk ++ closing.walk)
  | call callee opening (some argument) closing =>
    call callee opening (some argument) closing :: (callee.walk ++ (argument.walk ++ closing.walk))
  | binding form keyword name equals value terminator =>
    binding form keyword name equals value terminator :: (value.walk ++ terminator.walk)
  | expression value terminator => expression value terminator :: (value.walk ++ terminator.walk)
  | endMarker keyword terminator => [endMarker keyword terminator]
  | block form keyword condition headerEnd body ending =>
    block form keyword condition headerEnd body ending ::
      (condition.walk ++ (headerEnd.walk ++ (walkOf body ++ ending.walk)))
  | program statements eof => program statements eof :: walkOf statements

def walkOf : List Node → List Node
  | [] => []
  | node :: rest => node.walk ++ walkOf rest

end

mutual

/-- The number of nodes and bare tokens in a tree. -/
def size : Node → Nat
  | leaf _ => 1
  | unknown => 1
  | error _ _ skipped => skipped.length + 1
  | atomic _ => 2
  | binary left _ right => left.size + right.size + 2
  | call callee _ none closing => callee.size + closing.size + 2
  | call callee _ (some argument) closing => callee.size + argument.size + closing.size + 2
  | binding _ _ _ equals value terminator =>
    equals.toList.length + value.size + terminator.size + 3
  | expression value terminator => value.size + terminator.size + 1
  | endMarker _ terminator => terminator.toList.length + 2
  | block _ _ condition headerEnd body ending =>
    condition.size + headerEnd.size + totalSize body + ending.size + 2
  | program statements _ => totalSize statements + 2

def totalSize : List Node → Nat
  | [] => 0
  | node :: rest => node.size + totalSize rest

end

mutual

/-- Every construct in the tree has a known form. -/
def isKnown : Node → Bool
  | leaf _ => true
  | unknown => false
  | error _ _ _ => true
  | atomic _ => true
  | binary left _ right => left.isKnown && right.isKnown
  | call callee _ none closing => callee.isKnown && closing.isKnown
  | call callee _ (some argument) closing =>
    callee.isKnown && (argument.isKnown && closing.isKnown)
  | binding _ _ _ _ value terminator => value.isKnown && terminator.isKnown
  | expression value terminator => value.isKnown && terminator.isKnown
  | endMarker _ _ => true
  | block _ _ condition headerEnd body ending =>
    condition.isKnown && (headerEnd.isKnown && (areKnown body && ending.isKnown))
  | program statements _ => areKnown statements

def areKnown : List Node → Bool
  | [] => true
  | node :: rest => node.isKnown && areKnown rest

end

/-- From the first token under a node to the last one. -/
def ownSpan (node : Node) : Option Range :=
  match node.tokens.head?, node.tokens.getLast? with
  | some first, some last => some ⟨first.range.start, last.range.stop⟩
  | _, _ => none

/-- The stretch of text that belongs to a node. What is left of a failed construct also takes in
the place that its diagnostic points at. -/
def span (node : Node) : Option Range :=
  match node with
  | error _ range _ =>
    match node.ownSpan with
    | none => some range
    | some own => some (range.cover own)
  | _ => node.ownSpan

def isError : Node → Bool
  | error _ _ _ => true
  | _ => false

/-- What is left of failed constructs, in the order of the walk. -/
def errors (node : Node) : List Node := node.walk.filter isError

/-- Ask something of a tree that needs every construct in it to have a known form. -/
def asking {α : Type} (node : Node) (answer : α) : Except Fault α :=
  if node.isKnown then .ok answer else .error .noParts

end Node

end LineScript
