import LineScript.Proofs.Coverage

namespace LineScript

open Grammar

namespace Node

/-- The token of a bare token. -/
def leaf? : Node → Option Token
  | leaf token => some token
  | _ => none

theorem tokensOf_eq_flatMap (nodes : List Node) : tokensOf nodes = nodes.flatMap tokens := by
  induction nodes with
  | nil => rfl
  | cons node rest ih => rw [tokensOf, ih, List.flatMap_cons]

/-- The tokens of a node are those of its parts, one part after the other. -/
theorem tokens_eq_flatMap_children {node : Node} (inner : node.leaf? = none) :
    node.tokens = node.children.flatMap tokens := by
  cases node with
  | leaf token => cases inner
  | call callee opening argument closing => cases argument <;> simp [tokens, children]
  | binding form keyword name equals value terminator => cases equals <;> simp [tokens, children]
  | endMarker keyword terminator => cases terminator <;> simp [tokens, children]
  | error message range skipped => simp [tokens, children, List.flatMap_map]
  | block form keyword condition headerEnd body ending =>
    simp [tokens, children, tokensOf_eq_flatMap]
  | program statements eof => simp [tokens, children, tokensOf_eq_flatMap]
  | _ => simp [tokens, children]

theorem tokens_sublist_of_mem_children {node part : Node} (member : part ∈ node.children) :
    part.tokens.Sublist node.tokens := by
  have inner : node.leaf? = none := by
    cases node with
    | leaf token => cases member
    | _ => rfl
  rw [tokens_eq_flatMap_children inner, List.flatMap_def]
  exact List.sublist_flatten_of_mem (List.mem_map_of_mem member)

theorem mem_errorsOf {nodes : List Node} {problem : Node} :
    problem ∈ errorsOf nodes ↔ ∃ node ∈ nodes, problem ∈ node.errors := by
  induction nodes with
  | nil => simp
  | cons node rest ih => simp [ih]

/-- The problems in a part of a node are problems in the node. -/
theorem errors_of_mem_children {node part problem : Node} (member : part ∈ node.children)
    (inside : problem ∈ part.errors) : problem ∈ node.errors := by
  cases node with
  | leaf token => cases member
  | unknown => cases member
  | error message range skipped =>
    obtain ⟨token, _, rfl⟩ := List.mem_map.mp member
    cases inside
  | atomic token =>
    rw [List.mem_singleton.mp member] at inside
    cases inside
  | binary left operator right =>
    simp only [children, List.mem_cons, List.not_mem_nil, or_false] at member
    rcases member with rfl | rfl | rfl <;> simp_all
  | call callee opening argument closing =>
    simp only [children, List.mem_cons, List.mem_append, List.not_mem_nil, or_false] at member
    rcases member with rfl | rfl | given | rfl
    · simp [inside]
    · cases inside
    · simp [mem_errorsOf.mpr ⟨part, given, inside⟩]
    · simp [inside]
  | binding form keyword name equals value terminator =>
    simp only [children, List.mem_cons, List.mem_append, List.mem_map, List.not_mem_nil,
      or_false] at member
    rcases member with rfl | rfl | ⟨sign, _, rfl⟩ | rfl | rfl <;> simp_all
  | expression value terminator =>
    simp only [children, List.mem_cons, List.not_mem_nil, or_false] at member
    rcases member with rfl | rfl <;> simp_all
  | endMarker keyword terminator =>
    simp only [children, List.mem_cons, List.mem_map] at member
    rcases member with rfl | ⟨eol, _, rfl⟩ <;> cases inside
  | block form keyword condition headerEnd body ending =>
    simp only [children, List.mem_cons, List.mem_append, List.not_mem_nil, or_false] at member
    rcases member with rfl | rfl | rfl | stated | rfl
    · cases inside
    · simp [inside]
    · simp [inside]
    · simp [mem_errorsOf.mpr ⟨part, stated, inside⟩]
    · simp [inside]
  | program statements eof =>
    simp only [children, List.mem_append, List.mem_singleton] at member
    rcases member with stated | rfl
    · simp [mem_errorsOf.mpr ⟨part, stated, inside⟩]
    · cases inside

theorem areKnown_iff {nodes : List Node} : areKnown nodes ↔ ∀ node ∈ nodes, node.isKnown := by
  induction nodes with
  | nil => simp [areKnown]
  | cons node rest ih => simp [areKnown, ih]

end Node

namespace Grammar

variable {used : List Token} {node : Node}

theorem keptFailures_known {complaint : Complaint} (failed : keptFailures complaint used node) :
    node.isKnown := by
  obtain ⟨range, rfl⟩ := failed
  rfl

theorem Expected.known {kind : TokenKind} {complaint : Complaint}
    (derived : Expected keptFailures kind complaint used node) : node.isKnown := by
  cases derived with
  | found => rfl
  | missed failed => exact keptFailures_known failed

theorem Atom.known (derived : Atom keptFailures used node) : node.isKnown := by
  cases derived with
  | found => rfl
  | missed failed => exact keptFailures_known failed

theorem Expression.known (derived : Expression keptFailures used node) : node.isKnown := by
  cases derived with
  | operand operand => exact operand.known
  | binary _ _ right => simp [Node.isKnown, right.known]
  | call _ _ closing => simp [Node.isKnown, closing.known]
  | callWith _ _ _ closing => simp [Node.isKnown, closing.known]

theorem Assigned.known {value : Option Token × Node} (derived : Assigned keptFailures used value) :
    value.2.isKnown := by
  cases derived with
  | found _ value => exact value.known
  | missed failed => exact keptFailures_known failed

theorem Simple.known (derived : Simple keptFailures used node) : node.isKnown := by
  cases derived with
  | binding _ _ value terminator => simp [Node.isKnown, value.known, terminator.known]
  | expression value terminator => simp [Node.isKnown, value.known, terminator.known]
  | nameless failed => exact keptFailures_known failed
  | unexpectedEnd failed => exact keptFailures_known failed
  | unreadable failed => exact keptFailures_known failed

theorem BlockEnd.known (derived : BlockEnd keptFailures used node) : node.isKnown := by
  cases derived with
  | bare => rfl
  | full => rfl
  | missed failed => exact keptFailures_known failed

/-- Only nodes of a known form are made. -/
theorem Statements.known {depth : Int} {nodes : List Node}
    (derived : Statements keptFailures depth used nodes) : ∀ node ∈ nodes, node.isKnown := by
  induction derived with
  | nil => simp
  | stray _ _ ih => exact ih
  | simple statement _ ih => exact List.forall_mem_cons.mpr ⟨statement.known, ih⟩
  | block _ _ condition headerEnd _ ending _ ihBody ihAfter =>
    refine List.forall_mem_cons.mpr ⟨?_, ihAfter⟩
    simp [Node.isKnown, condition.known, headerEnd.known, Node.areKnown_iff.mpr ihBody, ending.known]
  | tooDeep _ failed _ ih => exact List.forall_mem_cons.mpr ⟨keptFailures_known failed, ih⟩

end Grammar

end LineScript
