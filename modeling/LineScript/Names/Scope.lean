import LineScript.Fault
import LineScript.OrderedMap

namespace LineScript

/-- The bindings of one block: names and the symbols they stand for. -/
abbrev Frame := OrderedMap String Int

def Frame.written (frame : Frame) : String :=
  "\x7b" ++ ", ".intercalate (frame.entries.map fun entry => entry.1 ++ ": #" ++ toString entry.2) ++
    "\x7d"

/-- What a caller may offer as a name. Only a non-empty text is one. -/
inductive NameOffer where
  | text (given : String)
  | integer (value : Int)
  | flag (value : Bool)
  | nothing
  deriving DecidableEq

namespace NameOffer

def shown : NameOffer → String
  | text given => quoted given
  | integer value => toString value
  | flag true => "True"
  | flag false => "False"
  | nothing => "None"

def name? : NameOffer → Option String
  | text given => if given.isEmpty then none else some given
  | _ => none

end NameOffer

/-- The frames around a place in a program, from the innermost outwards. -/
structure Scope where
  inner : Frame
  outer : List Frame
  deriving DecidableEq

namespace Scope

def empty : Scope := ⟨.empty, []⟩

def frames (scope : Scope) : List Frame := scope.inner :: scope.outer

/-- How many frames lie around the innermost one. -/
def depth (scope : Scope) : Nat := scope.outer.length

/-- Bind a name in the innermost frame. -/
def define (scope : Scope) (offer : NameOffer) (symbol : Int) : Except Fault Scope :=
  match offer.name? with
  | none => .error (.cannotDefine offer.shown)
  | some name => .ok { scope with inner := scope.inner.put name symbol }

/-- The symbol that a name stands for, and the depth of the frame that binds it. -/
def findIn (name : String) : List Frame → Option (Nat × Int)
  | [] => none
  | frame :: outer =>
    match frame.get? name with
    | some symbol => some (outer.length, symbol)
    | none => findIn name outer

def find? (scope : Scope) (name : String) : Option (Nat × Int) := findIn name scope.frames

def lookup? (scope : Scope) (name : String) : Option Int := (scope.find? name).map (·.2)

def lookup (scope : Scope) (name : String) : Except Fault Int :=
  match scope.lookup? name with
  | none => .error (.notDefined name)
  | some symbol => .ok symbol

/-- Enter a new frame. -/
def push (scope : Scope) : Scope := ⟨.empty, scope.frames⟩

/-- Leave the innermost frame and forget it. The outermost one stays. -/
def pop (scope : Scope) : Scope :=
  match scope.outer with
  | [] => scope
  | frame :: outer => ⟨frame, outer⟩

/-- Leave the innermost frame and keep its bindings in the next one. -/
def merge (scope : Scope) : Except Fault Scope :=
  match scope.outer with
  | [] => .error .outermostFrame
  | frame :: outer => .ok ⟨frame.putAll scope.inner.entries, outer⟩

/-- Bind names one after the other, up to the first that is refused. -/
def defineEach (scope : Scope) : List (NameOffer × Int) → Scope × Option Fault
  | [] => (scope, none)
  | (offer, symbol) :: rest =>
    match scope.define offer symbol with
    | .error fault => (scope, some fault)
    | .ok scope => scope.defineEach rest

/-- Bind all names of a map. A name offered twice keeps its first place and its last symbol. -/
def update (scope : Scope) (pairs : List (NameOffer × Int)) : Scope × Option Fault :=
  scope.defineEach (OrderedMap.empty.putAll pairs).entries

/-- The innermost frame, with a sign that there are others. -/
def brief (scope : Scope) : String :=
  Frame.written scope.inner ++ if scope.outer.isEmpty then "" else " -> ..."

def describe (scope : Scope) : String :=
  "<Environment chain: " ++ " -> ".intercalate (scope.frames.map Frame.written) ++ ">"

end Scope

end LineScript
