import LineScript.Tree.Node

namespace LineScript

/-- A token under the cursor, with the nodes around it, outermost first. -/
structure Hit where
  token : Token
  path : List Node

namespace Node

/-- Whether a part of a tree lies around a position. -/
def covers (position : Position) : Node → Bool
  | leaf token => token.range.contains position
  | node => node.span.any (·.contains position)

theorem size_pos (node : Node) : 0 < node.size := by
  cases node with
  | call callee opening argument closing => cases argument <;> simp [size]
  | _ => simp [size]

theorem size_le_totalSize {node : Node} {nodes : List Node} (member : node ∈ nodes) :
    node.size ≤ totalSize nodes := by
  induction nodes with
  | nil => cases member
  | cons first rest ih =>
    simp only [totalSize]
    rcases List.mem_cons.mp member with same | later
    · subst same; omega
    · have := ih later; omega

theorem size_lt_of_mem_children {node part : Node} (member : part ∈ node.children) :
    part.size < node.size := by
  cases node with
  | leaf token => simp [children] at member
  | unknown => simp [children] at member
  | error message range skipped =>
    simp only [children, List.mem_map] at member
    obtain ⟨token, inside, same⟩ := member
    have := List.length_pos_of_mem inside
    subst same
    simp only [size]
    omega
  | atomic token =>
    simp only [children, List.mem_singleton] at member
    subst member
    simp [size]
  | binary left operator right =>
    have := left.size_pos
    have := right.size_pos
    simp only [children, List.mem_cons, List.not_mem_nil, or_false] at member
    rcases member with same | same | same <;> subst same <;> simp only [size] <;> omega
  | call callee opening argument closing =>
    have := callee.size_pos
    have := closing.size_pos
    cases argument with
    | none =>
      simp only [children, Option.toList_none, List.nil_append, List.mem_cons, List.not_mem_nil,
        or_false] at member
      rcases member with same | same | same <;> subst same <;> simp only [size] <;> omega
    | some argument =>
      have := argument.size_pos
      simp only [children, Option.toList_some, List.singleton_append, List.mem_cons,
        List.not_mem_nil, or_false] at member
      rcases member with same | same | same | same <;> subst same <;> simp only [size] <;> omega
  | binding form keyword name equals value terminator =>
    have := value.size_pos
    have := terminator.size_pos
    simp only [children, List.mem_cons, List.mem_append, List.mem_map, List.not_mem_nil,
      or_false] at member
    rcases member with same | same | ⟨token, _, same⟩ | same | same <;> subst same <;>
      simp only [size] <;> omega
  | expression value terminator =>
    have := value.size_pos
    have := terminator.size_pos
    simp only [children, List.mem_cons, List.not_mem_nil, or_false] at member
    rcases member with same | same <;> subst same <;> simp only [size] <;> omega
  | endMarker keyword terminator =>
    simp only [children, List.mem_cons, List.mem_map] at member
    rcases member with same | ⟨token, _, same⟩ <;> subst same <;> simp only [size] <;> omega
  | block form keyword condition headerEnd body ending =>
    have := condition.size_pos
    have := headerEnd.size_pos
    have := ending.size_pos
    simp only [children, List.mem_cons, List.mem_append, List.not_mem_nil, or_false] at member
    rcases member with same | same | same | inside | same
    · subst same; simp only [size]; omega
    · subst same; simp only [size]; omega
    · subst same; simp only [size]; omega
    · have := size_le_totalSize inside; simp only [size]; omega
    · subst same; simp only [size]; omega
  | program statements eof =>
    simp only [children, List.mem_append, List.mem_singleton] at member
    rcases member with inside | same
    · have := size_le_totalSize inside; simp only [size]; omega
    · subst same; simp only [size]; omega

/-- Go down from a node through the first part around a position, again and again, to a token. -/
def descend (position : Position) (path : List Node) (node : Node) : Option Hit :=
  match found : node.children.find? (·.covers position) with
  | none => none
  | some (leaf token) => some ⟨token, path ++ [node]⟩
  | some part =>
    have : part.size < node.size :=
      size_lt_of_mem_children (List.mem_of_find?_eq_some found)
    descend position (path ++ [node]) part
termination_by node.size

/-- Find the token at a position. The parts of the root are looked at in turn, and a part whose
form is not known stops the search. -/
def locate (root : Node) (position : Position) : Except Fault (Option Hit) :=
  match root with
  | unknown => .error .noParts
  | _ =>
    match root.children.find? (fun part => !part.isKnown || part.covers position) with
    | none => .ok none
    | some part => part.asking (root.descend position [])

end Node

/-- The stretch of text of the innermost node around a hit. -/
def Hit.span (hit : Hit) : Except Fault (Option Range) :=
  match hit.path.getLast? with
  | none => .ok none
  | some node => node.asking node.span

end LineScript
