import LineScript.Proofs.Anatomy
import LineScript.Proofs.Containment
import LineScript.Proofs.Declaring

namespace LineScript

open Grammar

/-- The shortest beginning of a token list with a property. -/
structure Shortest (holds : List Token → Prop) (tokens run : List Token) : Prop where
  start : run <+: tokens
  here : holds run
  least : ∀ other, other <+: tokens → holds other → run.length ≤ other.length

/-- What is cut off a token list: all up to where a property holds first, with an end of line right
behind it, or the whole list if the property never holds. -/
inductive CutWhere (holds : List Token → Prop) (tokens : List Token) : List Token → Prop
  | found {run rest} : tokens = run ++ rest → Shortest holds tokens run →
      CutWhere holds tokens (run ++ (rest.head?.filter (·.kind = .endOfLine)).toList)
  | missed : (∀ run, run <+: tokens → ¬ holds run) → CutWhere holds tokens tokens

/-- A property that does not hold at once is looked for behind the first token. -/
theorem CutWhere.cons {holds later : List Token → Prop} {token : Token} {rest taken : List Token}
    (same : ∀ run, holds (token :: run) ↔ later run) (empty : ¬ holds [])
    (cut : CutWhere later rest taken) : CutWhere holds (token :: rest) (token :: taken) := by
  have behind : ∀ run, run <+: token :: rest → holds run →
      ∃ other, run = token :: other ∧ other <+: rest ∧ later other := by
    intro run start here
    rcases List.prefix_cons_iff.mp start with rfl | ⟨other, rfl, inside⟩
    · exact absurd here empty
    · exact ⟨other, rfl, inside, (same other).mp here⟩
  cases cut with
  | @found run rest split shortest =>
    subst split
    refine @found _ _ (token :: run) rest rfl
      ⟨List.prefix_append _ _, (same run).mpr shortest.here, ?_⟩
    intro other start here
    obtain ⟨inner, rfl, inside, holds⟩ := behind other start here
    exact Nat.succ_le_succ (shortest.least inner inside holds)
  | missed never =>
    refine .missed fun run start here => ?_
    obtain ⟨inner, _, inside, holds⟩ := behind run start here
    exact never inner inside holds

/-- In a run of tokens as many blocks end as start. -/
def Balanced (run : List Token) : Prop :=
  run.countP (·.kind = .endWord) = run.countP (·.kind.opensBlock)

/-- In a run of tokens `opened + 1` more blocks end than start. -/
def Closes (opened : Nat) (run : List Token) : Prop :=
  run.countP (·.kind = .endWord) = run.countP (·.kind.opensBlock) + opened + 1

theorem not_closes_nil (opened : Nat) : ¬ Closes opened [] := by
  simp [Closes]

theorem countP_fences_of_opensBlock {token : Token} (opens : token.kind.opensBlock)
    (run : List Token) :
    (token :: run).countP (·.kind = .endWord) = run.countP (·.kind = .endWord) ∧
      (token :: run).countP (·.kind.opensBlock) = run.countP (·.kind.opensBlock) + 1 := by
  have inner : token.kind ≠ .endWord := by
    intro closes
    simp [closes, TokenKind.opensBlock] at opens
  exact ⟨List.countP_cons_of_neg (by simpa using inner), List.countP_cons_of_pos opens⟩

namespace Parser

/-- The end that is looked for may be the first token. -/
theorem cutWhere_of_endWord {token : Token} (closes : token.kind = .endWord) (rest : List Token) :
    CutWhere (Closes 0) (token :: rest)
      (token :: (rest.head?.filter (·.kind = .endOfLine)).toList) := by
  refine @CutWhere.found _ _ [token] rest rfl ⟨⟨rest, rfl⟩, ?_, fun other _ here => ?_⟩
  · simp [Closes, closes, TokenKind.opensBlock]
  · have filled : other ≠ [] := by
      rintro rfl
      exact not_closes_nil 0 here
    exact List.length_pos_iff.mpr filled

/-- A block is cut off behind its end. -/
theorem splitBlock_cutWhere (opened : Nat) (tokens : List Token) :
    CutWhere (Closes opened) tokens (splitBlock opened tokens).1 := by
  fun_induction splitBlock opened tokens with
  | case1 opened =>
    refine .missed fun run start => ?_
    rw [List.prefix_nil.mp start]
    exact not_closes_nil opened
  | case2 opened token rest opens split ih =>
    refine .cons (fun run => ?_) (not_closes_nil opened) ih
    obtain ⟨ends, starts⟩ := countP_fences_of_opensBlock opens run
    rw [Closes, Closes, ends, starts]
    omega
  | case3 token rest opens closes line =>
    obtain ⟨eol, more, rfl⟩ : ∃ eol more, rest = eol :: more := by
      cases rest with
      | nil => simp at line
      | cons eol more => exact ⟨eol, more, rfl⟩
    have kind : eol.kind = .endOfLine := by simpa using line
    simpa [Option.filter, kind] using cutWhere_of_endWord closes (eol :: more)
  | case4 token rest opens closes line =>
    have none : (rest.head?.filter (·.kind = .endOfLine)).toList = [] := by
      cases rest with
      | nil => rfl
      | cons next more => simpa [Option.filter] using line
    simpa [none] using cutWhere_of_endWord closes rest
  | case5 token rest opens closes opened split ih =>
    refine .cons (fun run => ?_) (not_closes_nil _) ih
    simp only [Closes, List.countP_cons, closes, decide_true, TokenKind.opensBlock, if_true]
    simp only [reduceCtorEq, or_self, decide_false, Bool.false_eq_true, if_false]
    omega
  | case6 opened token rest opens inner split ih =>
    refine .cons (fun run => ?_) (not_closes_nil _) ih
    simp only [Closes, List.countP_cons, opens, inner, decide_false, Bool.false_eq_true, if_false]
    omega

/-- A block that is cut off with its keyword is the shortest run from there in which as many blocks
end as start. -/
theorem block_cutWhere {keyword : Token} (opens : keyword.kind.opensBlock) (ahead : List Token) :
    CutWhere (fun run => run ≠ [] ∧ Balanced run) (keyword :: ahead)
      (keyword :: (splitBlock 0 ahead).1) := by
  refine .cons (fun run => ?_) (fun empty => empty.1 rfl) (splitBlock_cutWhere 0 ahead)
  obtain ⟨ends, starts⟩ := countP_fences_of_opensBlock opens run
  rw [Closes, Balanced, ends, starts]
  simp

end Parser

namespace Node

/-- A way down a tree: it starts at a node, and goes on at a part of the node or stops there. -/
inductive Descends : Node → List Node → Prop
  | stop {node} : Descends node [node]
  | down {node part path} : part ∈ node.children → Descends part path → Descends node (node :: path)

def isBlock : Node → Bool
  | block .. => true
  | _ => false

/-- How many blocks a way leads through. -/
def blocksOn (path : List Node) : Nat := path.countP isBlock

/-- How many nodes a way leads through. Bare tokens do not count. -/
def nodesOn (path : List Node) : Nat := path.countP (·.leaf?.isNone)

theorem nodesOn_cons_le (node : Node) (path : List Node) : nodesOn (node :: path) ≤ nodesOn path + 1 := by
  rw [nodesOn, List.countP_cons, nodesOn]
  split <;> omega

theorem blocksOn_cons_of_not_isBlock {node : Node} (single : node.isBlock = false) (path : List Node) :
    blocksOn (node :: path) = blocksOn path :=
  List.countP_cons_of_neg (by simp [single])

/-- No way down from the node meets a block, read or left out, and none has more than `limit` nodes. -/
structure Plain (limit : Nat) (node : Node) : Prop where
  blocks : ∀ path, node.Descends path → blocksOn path = 0
  nodes : ∀ path, node.Descends path → nodesOn path ≤ limit
  whole : ∀ path, node.Descends path → ∀ last ∈ path.getLast?, last.isAbout .nestedTooDeeply = false

theorem Plain.mono {limit more : Nat} {node : Node} (plain : Plain limit node) (bound : limit ≤ more) :
    Plain more node :=
  ⟨plain.blocks, fun path way => Nat.le_trans (plain.nodes path way) bound, plain.whole⟩

theorem Descends.head? {node : Node} {path : List Node} (way : node.Descends path) :
    path.head? = some node := by
  cases way <;> rfl

theorem Descends.getLast?_cons {node part : Node} {path : List Node} (way : part.Descends path) :
    (node :: path).getLast? = path.getLast? := by
  apply List.getLast?_cons_of_ne_nil
  rintro rfl
  cases way.head?

theorem plain_leaf (token : Token) : Plain 0 (leaf token) := by
  have only {path : List Node} (way : (leaf token).Descends path) : path = [leaf token] := by
    cases way with
    | stop => rfl
    | down member => cases member
  refine ⟨fun path way => ?_, fun path way => ?_, fun path way last found => ?_⟩ <;> cases only way
  · rfl
  · exact Nat.le_refl 0
  · cases found
    rfl

theorem Plain.of_children {limit : Nat} {node : Node} (single : node.isBlock = false)
    (read : node.isAbout .nestedTooDeeply = false) (parts : ∀ part ∈ node.children, Plain limit part) :
    Plain (limit + 1) node where
  blocks path way := by
    cases way with
    | stop => exact blocksOn_cons_of_not_isBlock single []
    | down member way =>
      rw [blocksOn_cons_of_not_isBlock single]
      exact (parts _ member).blocks _ way
  nodes path way := by
    cases way with
    | stop => exact Nat.le_trans (nodesOn_cons_le node []) (Nat.le_add_left 1 limit)
    | @down _ _ path member way =>
      have below := (parts _ member).nodes _ way
      have here := nodesOn_cons_le node path
      omega
  whole path way := by
    cases way with
    | stop => simpa using read
    | down member way =>
      rw [way.getLast?_cons]
      exact (parts _ member).whole _ way

/-- What is left of a failed construct at the end of a way down is among the problems of the tree. -/
theorem Descends.mem_errors {node problem : Node} {path : List Node} (way : node.Descends path)
    (last : path.getLast? = some problem) (wrong : problem.isError) : problem ∈ node.errors := by
  induction way with
  | @stop node =>
    obtain rfl : node = problem := by simpa using last
    cases node with
    | error message range skipped => exact List.mem_singleton_self _
    | _ => cases wrong
  | down member way ih =>
    rw [way.getLast?_cons] at last
    exact errors_of_mem_children member (ih last)

theorem exists_of_mem_walkOf {nodes : List Node} {node : Node} (member : node ∈ walkOf nodes) :
    ∃ part ∈ nodes, node ∈ part.walk := by
  induction nodes with
  | nil => cases member
  | cons first rest ih =>
    rcases List.mem_append.mp member with here | later
    · exact ⟨first, List.mem_cons_self, here⟩
    · obtain ⟨part, inside, below⟩ := ih later
      exact ⟨part, List.mem_cons_of_mem _ inside, below⟩

/-- What a walk over a tree meets is its root, or it is met in one of the root's parts. -/
theorem eq_or_exists_of_mem_walk {root node : Node} (member : node ∈ root.walk) :
    node = root ∨ ∃ part ∈ root.children, node ∈ part.walk := by
  cases root with
  | call callee opening argument closing =>
    cases argument <;> simp only [walk, children, List.mem_cons, List.mem_append] at member ⊢ <;> grind
  | block form keyword condition headerEnd body ending =>
    simp only [walk, children, List.mem_cons, List.mem_append] at member ⊢
    have inside := @exists_of_mem_walkOf body node
    grind
  | program statements eof =>
    rcases List.mem_cons.mp member with rfl | inside
    · exact .inl rfl
    · obtain ⟨part, statement, below⟩ := exists_of_mem_walkOf inside
      exact .inr ⟨part, List.mem_append_left _ statement, below⟩
  | _ => simp only [walk, children, List.mem_cons, List.mem_append] at member ⊢; grind

/-- Each node that a walk over a tree meets lies at the end of a way down. -/
theorem exists_descends_of_mem_walk {root node : Node} (member : node ∈ root.walk) :
    ∃ path, root.Descends path ∧ path.getLast? = some node := by
  rcases eq_or_exists_of_mem_walk member with rfl | ⟨part, inside, below⟩
  · exact ⟨[node], .stop, rfl⟩
  · obtain ⟨path, way, last⟩ := exists_descends_of_mem_walk below
    exact ⟨root :: path, .down inside way, way.getLast?_cons.trans last⟩
termination_by root.size
decreasing_by exact size_lt_of_mem_children inside

/-- The node has the problem in its body, and none of its other parts is a block left out. -/
def HoldsInBody (node problem : Node) : Prop :=
  ∃ form keyword condition headerEnd body ending,
    node = block form keyword condition headerEnd body ending ∧ problem ∈ body ∧
      ∀ part ∈ [condition, headerEnd, ending], part.isAbout .nestedTooDeeply = false

/-- What the limit on the nesting means for a statement inside `depth` blocks. -/
structure Limited (depth : Int) (node : Node) : Prop where
  blocks : ∀ path, node.Descends path → depth + blocksOn path ≤ maxNesting
  nodes : ∀ path, node.Descends path → depth + nodesOn path ≤ maxNesting + 3
  leftOut : ∀ path, node.Descends path → ∀ problem ∈ path.getLast?,
    problem.isAbout .nestedTooDeeply → depth + blocksOn path = maxNesting ∧
      (path = [problem] ∨ ∃ outer block, path = outer ++ [block, problem] ∧ block.HoldsInBody problem)

theorem Plain.limited {node : Node} (plain : Plain 3 node) {depth : Int} (bound : depth ≤ maxNesting) :
    Limited depth node where
  blocks path way := by
    rw [plain.blocks path way]
    omega
  nodes path way := by
    have nodes := plain.nodes path way
    omega
  leftOut path way problem last about := by
    rw [plain.whole path way problem last] at about
    cases about

/-- Where the limit is reached a block may be left out. -/
theorem limited_of_leftOut (range : Range) (skipped : List Token) :
    Limited maxNesting (error Complaint.nestedTooDeeply.message range skipped) := by
  have token {part : Node} (member : part ∈ skipped.map leaf) : Plain 0 part := by
    obtain ⟨token, _, rfl⟩ := List.mem_map.mp member
    exact plain_leaf token
  have here := nodesOn_cons_le (error Complaint.nestedTooDeeply.message range skipped)
  refine ⟨fun path way => ?_, fun path way => ?_, fun path way problem last about => ?_⟩
  · cases way with
    | stop => exact Int.le_refl _
    | down member way =>
      rw [blocksOn_cons_of_not_isBlock rfl, (token member).blocks _ way]
      exact Int.le_refl _
  · cases way with
    | stop =>
      have alone := here []
      have none : nodesOn [] = 0 := rfl
      omega
    | @down _ _ path member way =>
      have below := (token member).nodes _ way
      have alone := here path
      omega
  · cases way with
    | stop =>
      cases last
      exact ⟨rfl, .inl rfl⟩
    | down member way =>
      rw [way.getLast?_cons] at last
      rw [(token member).whole _ way problem last] at about
      cases about

section Block

variable {depth : Int} {form : BlockForm} {keyword : Token} {condition headerEnd ending : Node}
  {body : List Node}

/-- Down from a block a way leads into its body, or it meets no other block. -/
theorem Descends.block_cases (test : Plain 2 condition) (header : Plain 1 headerEnd)
    (closing : Plain 1 ending) {path : List Node}
    (way : (block form keyword condition headerEnd body ending).Descends path) :
    path = [block form keyword condition headerEnd body ending] ∨
      ∃ part inner, path = block form keyword condition headerEnd body ending :: inner ∧
        part.Descends inner ∧ (Plain 2 part ∨ part ∈ body) := by
  cases way with
  | stop => exact .inl rfl
  | @down _ part inner member way =>
    refine .inr ⟨part, inner, rfl, way, ?_⟩
    simp only [children, List.mem_cons, List.mem_append, List.not_mem_nil, or_false] at member
    rcases member with rfl | rfl | rfl | inside | rfl
    · exact .inl ((plain_leaf keyword).mono (by omega))
    · exact .inl test
    · exact .inl (header.mono (by omega))
    · exact .inr inside
    · exact .inl (closing.mono (by omega))

theorem Plain.read {limit : Nat} {node : Node} (plain : Plain limit node) :
    node.isAbout .nestedTooDeeply = false :=
  plain.whole [node] .stop node rfl

/-- A block of limited statements is limited itself, one block further out. -/
theorem Limited.block (room : depth < maxNesting) (test : Plain 2 condition)
    (header : Plain 1 headerEnd) (closing : Plain 1 ending)
    (statements : ∀ part ∈ body, Limited (depth + 1) part) :
    Limited depth (block form keyword condition headerEnd body ending) := by
  have blocks (path : List Node) :
      blocksOn (Node.block form keyword condition headerEnd body ending :: path) = blocksOn path + 1 :=
    List.countP_cons_of_pos rfl
  have nodes (path : List Node) :
      nodesOn (Node.block form keyword condition headerEnd body ending :: path) = nodesOn path + 1 :=
    List.countP_cons_of_pos rfl
  have none : blocksOn [] = 0 ∧ nodesOn [] = 0 := ⟨rfl, rfl⟩
  refine ⟨fun path way => ?_, fun path way => ?_, fun path way problem last about => ?_⟩
  · rcases way.block_cases test header closing with rfl | ⟨part, inner, rfl, way, plain | inside⟩
    · rw [blocks]
      omega
    · rw [blocks, plain.blocks inner way]
      omega
    · have below := (statements part inside).blocks inner way
      rw [blocks]
      omega
  · rcases way.block_cases test header closing with rfl | ⟨part, inner, rfl, way, plain | inside⟩
    · rw [nodes]
      omega
    · have below := plain.nodes inner way
      rw [nodes]
      omega
    · have below := (statements part inside).nodes inner way
      rw [nodes]
      omega
  · rcases way.block_cases test header closing with rfl | ⟨part, inner, rfl, way, plain | inside⟩
    · cases last
      cases about
    · rw [way.getLast?_cons] at last
      rw [plain.whole inner way problem last] at about
      cases about
    · rw [way.getLast?_cons] at last
      obtain ⟨full, place⟩ := (statements part inside).leftOut inner way problem last about
      refine ⟨by rw [blocks]; omega, .inr ?_⟩
      rcases place with rfl | ⟨outer, around, rfl, held⟩
      · obtain rfl : problem = part := Option.some.inj way.head?
        refine ⟨[], _, rfl, form, keyword, condition, headerEnd, body, ending, rfl, inside, ?_⟩
        simp [test.read, header.read, closing.read]
      · exact ⟨_ :: outer, around, rfl, held⟩

end Block

/-- What the limit on the nesting means for a way down from a program. -/
structure Fits (path : List Node) : Prop where
  blocks : blocksOn path ≤ maxNesting
  nodes : nodesOn path ≤ maxNesting + 4
  leftOut : ∀ problem, path.getLast? = some problem → problem.isAbout .nestedTooDeeply →
    ∃ outer block, path = outer ++ [block, problem] ∧ blocksOn (outer ++ [block]) = maxNesting ∧
      block.HoldsInBody problem

theorem isBlock_of_isAbout {node : Node} {complaint : Complaint} (about : node.isAbout complaint) :
    node.isBlock = false := by
  cases node with
  | block => cases about
  | _ => rfl

/-- A program of limited statements has no way down that is too long. -/
theorem Descends.fits {statements : List Node} {eof : Token} {path : List Node}
    (way : (program statements eof).Descends path) (limited : ∀ node ∈ statements, Limited 0 node) :
    Fits path := by
  have root (inner : List Node) : blocksOn (program statements eof :: inner) = blocksOn inner :=
    blocksOn_cons_of_not_isBlock rfl inner
  have one (inner : List Node) : nodesOn (program statements eof :: inner) = nodesOn inner + 1 :=
    List.countP_cons_of_pos rfl
  have room : maxNesting = 100 := rfl
  cases way with
  | stop =>
    refine ⟨by rw [root]; decide, by rw [one]; decide, fun problem last about => ?_⟩
    cases last
    cases about
  | @down _ part inner member way =>
    rcases List.mem_append.mp member with statement | final
    · have fits := limited part statement
      have blocks := fits.blocks inner way
      have nodes := fits.nodes inner way
      refine ⟨by rw [root]; omega, by rw [one]; omega, fun problem last about => ?_⟩
      rw [way.getLast?_cons] at last
      obtain ⟨full, rfl | ⟨outer, around, rfl, held⟩⟩ := fits.leftOut inner way problem last about
      · have single : blocksOn [problem] ≤ 1 := List.countP_le_length
        omega
      · refine ⟨_ :: outer, around, rfl, ?_, held⟩
        have apart : blocksOn (outer ++ [around, problem]) =
            blocksOn (outer ++ [around]) + blocksOn [problem] := by
          rw [blocksOn, blocksOn, blocksOn, ← List.countP_append, List.append_assoc]
          rfl
        have none : blocksOn [problem] = 0 := blocksOn_cons_of_not_isBlock (isBlock_of_isAbout about) []
        rw [List.cons_append, root]
        omega
    · obtain rfl := List.mem_singleton.mp final
      have plain := plain_leaf eof
      have blocks := plain.blocks inner way
      have nodes := plain.nodes inner way
      refine ⟨by rw [root]; omega, by rw [one]; omega, fun problem last about => ?_⟩
      rw [way.getLast?_cons] at last
      rw [plain.whole inner way problem last] at about
      cases about

end Node

/-- No two complaints are worded alike. -/
theorem Complaint.message_injective : Function.Injective Complaint.message := by
  intro first second
  cases first <;> cases second <;> decide

namespace Grammar

open Node

variable {used : List Token} {node : Node}

theorem keptFailures_plain {complaint : Complaint} (other : complaint ≠ .nestedTooDeeply)
    (failed : keptFailures complaint used node) : node.Plain 1 := by
  obtain ⟨range, rfl⟩ := failed
  have worded := mt (@Complaint.message_injective complaint .nestedTooDeeply) other
  refine .of_children rfl (decide_eq_false worded) fun part member => ?_
  obtain ⟨token, _, rfl⟩ := List.mem_map.mp member
  exact plain_leaf token

theorem plain_atomic (token : Token) : (Node.atomic token).Plain 1 :=
  .of_children rfl rfl (List.forall_mem_singleton.mpr (plain_leaf token))

theorem Expected.plain {kind : TokenKind} {complaint : Complaint}
    (derived : Expected keptFailures kind complaint used node) (other : complaint ≠ .nestedTooDeeply) :
    node.Plain 1 := by
  cases derived with
  | found => exact (plain_leaf _).mono (by omega)
  | missed failed => exact keptFailures_plain other failed

theorem Terminator.plain (derived : Terminator keptFailures used node) : node.Plain 1 :=
  Expected.plain derived (by decide)

theorem Atom.plain (derived : Atom keptFailures used node) : node.Plain 1 := by
  cases derived with
  | found => exact plain_atomic _
  | missed failed => exact keptFailures_plain (by decide) failed

theorem Expression.plain (derived : Expression keptFailures used node) : node.Plain 2 := by
  have bare (token : Token) : (leaf token).Plain 1 := (plain_leaf token).mono (by omega)
  cases derived with
  | operand operand => exact operand.plain.mono (by omega)
  | binary _ _ right =>
    refine .of_children rfl rfl ?_
    simp [children, plain_atomic, bare, right.plain]
  | call _ _ closing =>
    refine .of_children rfl rfl ?_
    simp [children, plain_atomic, bare, closing.plain (by decide)]
  | callWith _ _ _ closing =>
    refine .of_children rfl rfl ?_
    simp [children, plain_atomic, bare, closing.plain (by decide)]

theorem Assigned.plain {value : Option Token × Node} (derived : Assigned keptFailures used value) :
    value.2.Plain 2 := by
  cases derived with
  | found _ value => exact value.plain
  | missed failed => exact (keptFailures_plain (by decide) failed).mono (by omega)

theorem Simple.plain (derived : Simple keptFailures used node) : node.Plain 3 := by
  have bare (token : Token) : (leaf token).Plain 2 := (plain_leaf token).mono (by omega)
  cases derived with
  | binding _ _ value terminator =>
    refine .of_children rfl rfl ?_
    simp [children, bare, value.plain, terminator.plain.mono, or_imp, forall_and]
  | expression value terminator =>
    refine .of_children rfl rfl ?_
    simp [children, value.plain, terminator.plain.mono]
  | nameless failed => exact (keptFailures_plain (by decide) failed).mono (by omega)
  | unexpectedEnd failed => exact (keptFailures_plain (by decide) failed).mono (by omega)
  | unreadable failed => exact (keptFailures_plain (by decide) failed).mono (by omega)

theorem BlockEnd.plain (derived : BlockEnd keptFailures used node) : node.Plain 1 := by
  cases derived with
  | bare => exact .of_children rfl rfl (by simp [children, plain_leaf])
  | full => exact .of_children rfl rfl (by simp [children, plain_leaf])
  | missed failed => exact keptFailures_plain (by decide) failed

/-- Statements keep to the limit on the nesting, together with the blocks around them. -/
theorem Statements.limited {depth : Int} {nodes : List Node}
    (derived : Statements keptFailures depth used nodes) (bound : depth ≤ maxNesting) :
    ∀ node ∈ nodes, Limited depth node := by
  induction derived with
  | nil => exact List.forall_mem_nil _
  | stray _ _ ih => exact ih bound
  | simple statement _ ih =>
    exact List.forall_mem_cons.mpr ⟨statement.plain.limited bound, ih bound⟩
  | block room _ condition headerEnd _ ending _ ihBody ihAfter =>
    refine List.forall_mem_cons.mpr ⟨?_, ihAfter bound⟩
    exact .block room condition.plain headerEnd.plain ending.plain (ihBody (by omega))
  | tooDeep full failed _ ih =>
    obtain rfl := Int.le_antisymm bound full
    obtain ⟨range, rfl⟩ := failed
    exact List.forall_mem_cons.mpr ⟨limited_of_leftOut range _, ih bound⟩

end Grammar

theorem Node.eq_of_isAbout {complaint other : Complaint} {range : Range} {skipped : List Token}
    (about : (error complaint.message range skipped).isAbout other) : complaint = other :=
  Complaint.message_injective (of_decide_eq_true about)

/-- A block is left out with all tokens up to its end. -/
theorem Lost.leftOut {all : List Token} {problem : Node} (lost : Lost all problem)
    (about : problem.isAbout .nestedTooDeeply) :
    ∃ before keyword ahead eof beyond, all = before ++ keyword :: (ahead ++ eof :: beyond) ∧
      keyword.kind.opensBlock ∧ eof.kind = .endOfFile ∧
      problem.tokens = keyword :: (Parser.splitBlock 0 ahead).1 := by
  cases lost with
  | missing missing _ =>
    cases Node.eq_of_isAbout about
    cases missing
  | nameless => cases Node.eq_of_isAbout about
  | unexpectedEnd => cases Node.eq_of_isAbout about
  | unreadable => cases Node.eq_of_isAbout about
  | tooDeep opens split _ last => exact ⟨_, _, _, _, _, split, opens, last, rfl⟩

/-- In a list whose last token is its only end of the file, nothing stands behind an end of the file. -/
theorem append_eof_inj {ahead before after : List Token} {eof last : Token}
    (inner : ∀ token ∈ ahead, token.kind ≠ .endOfFile) (kind : last.kind = .endOfFile)
    (split : ahead ++ [eof] = before ++ last :: after) : ahead = before := by
  rcases List.eq_nil_or_concat after with rfl | ⟨more, final, rfl⟩
  · exact (List.append_inj' split rfl).1
  · have same : ahead ++ [eof] = (before ++ last :: more) ++ [final] := by simpa using split
    have early : last ∈ ahead := by
      rw [(List.append_inj' same rfl).1]
      simp
    exact absurd kind (inner last early)

section Program

variable (tokens : List Token)

/-- Nothing behind the first end of the file counts for the tree. -/
theorem Parser.program_startOf : (parseTokens tokens).1 =
    (startOf (tokens.takeWhile (!isEnd ·)) (ofTokens tokens).eof).program.item := by
  have alike : (ofTokens tokens).Alike (startOf (tokens.takeWhile (!isEnd ·)) (ofTokens tokens).eof) :=
    ⟨ofTokens_ahead tokens, rfl, ofTokens_depth tokens⟩
  exact alike.program.item

theorem Parser.startOf_sane :
    (startOf (tokens.takeWhile (!isEnd ·)) (ofTokens tokens).eof).Sane := by
  have sane := ofTokens_sane tokens
  exact ⟨ofTokens_ahead tokens ▸ sane.inner, sane.last⟩

/-- The statements of a program keep to the limit. -/
theorem parseTokens_limited : ∃ statements eof, (parseTokens tokens).1 = .program statements eof ∧
    ∀ node ∈ statements, node.Limited 0 := by
  have derived := (Parser.program_reads (Parser.startOf_sane tokens) rfl).1
  rw [← Parser.program_startOf] at derived
  obtain ⟨statements, derived, tree, _⟩ := derived.statements
  exact ⟨statements, _, tree, derived.limited (by decide)⟩

/-- A block that is left out of the tree of a token list starts before the first end of the file. -/
theorem parseTokens_leftOut {problem : Node} (wrong : problem ∈ (parseTokens tokens).1.errors)
    (about : problem.isAbout .nestedTooDeeply) :
    ∃ before keyword ahead, tokens.takeWhile (!Parser.isEnd ·) = before ++ keyword :: ahead ∧
      keyword.kind.opensBlock ∧ problem.tokens = keyword :: (Parser.splitBlock 0 ahead).1 := by
  have sane := Parser.startOf_sane tokens
  have reads := (Parser.program_reads sane rfl).2
  rw [← Parser.program_startOf] at reads
  obtain ⟨before, keyword, ahead, eof, beyond, split, opens, last, held⟩ :=
    (reads.lost problem wrong).leftOut about
  refine ⟨before, keyword, ahead, ?_, opens, held⟩
  have whole : tokens.takeWhile (!Parser.isEnd ·) ++ [(Parser.ofTokens tokens).eof] =
      (before ++ keyword :: ahead) ++ eof :: beyond := by
    rw [List.append_assoc]
    exact split
  exact append_eof_inj sane.inner last whole

end Program

/-- The tree of a token list is bounded, whatever the tokens: a way down leads through `maxNesting`
blocks at most, and with the program, a statement and its expressions through four nodes more. A block
is left out only inside the innermost of `maxNesting` blocks, with the shortest run of tokens in which
all blocks end. -/
theorem parseTokens_bounds_depth (tokens : List Token) {path : List Node}
    (way : (parseTokens tokens).1.Descends path) :
    Node.blocksOn path ≤ maxNesting ∧ Node.nodesOn path ≤ maxNesting + 4 ∧
    ∀ range skipped, path.getLast? = some (.error "Blocks are nested too deeply." range skipped) →
      (∃ outer block, path = outer ++ [block, .error "Blocks are nested too deeply." range skipped] ∧
        Node.blocksOn (outer ++ [block]) = maxNesting ∧
        block.HoldsInBody (.error "Blocks are nested too deeply." range skipped)) ∧
      ∃ before keyword ahead, tokens.takeWhile (!Parser.isEnd ·) = before ++ keyword :: ahead ∧
        keyword.kind.opensBlock ∧ skipped.head? = some keyword ∧
        CutWhere (fun run => run ≠ [] ∧ Balanced run) (keyword :: ahead) skipped := by
  obtain ⟨statements, eof, tree, limited⟩ := parseTokens_limited tokens
  have fits := Node.Descends.fits (tree ▸ way) limited
  refine ⟨fits.blocks, fits.nodes, fun range skipped last => ⟨fits.leftOut _ last rfl, ?_⟩⟩
  obtain ⟨before, keyword, ahead, split, opens, held⟩ :=
    parseTokens_leftOut tokens (way.mem_errors last rfl) rfl
  obtain rfl : skipped = keyword :: (Parser.splitBlock 0 ahead).1 := by simpa [Node.tokens] using held
  exact ⟨before, keyword, ahead, split, opens, rfl, Parser.block_cutWhere opens ahead⟩

/-- Inside a hundred blocks one more is left out, with the block in it and the end of its line. -/
theorem parseTokens_bounds_depth_at_left_out_block :
    let token (kind : TokenKind) : Token := ⟨0, kind, "", ⟨⟨0, 0⟩, ⟨0, 0⟩⟩, ""⟩
    let leftOut := [.ifWord, .whileWord, .name, .endWord, .endWord, .endOfLine].map token
    let tokens := List.replicate 100 (token .whileWord) ++ leftOut ++
      [.endWord, .endOfFile, .ifWord].map token
    ∃ path range, (parseTokens tokens).1.Descends path ∧ Node.blocksOn path ≤ maxNesting ∧
      path.getLast? = some (.error "Blocks are nested too deeply." range leftOut) ∧
      ∃ outer block, path = outer ++ [block, .error "Blocks are nested too deeply." range leftOut] ∧
        Node.blocksOn (outer ++ [block]) = maxNesting := by
  intro token leftOut tokens
  have found : ((parseTokens tokens).1.errors.filter (·.isAbout .nestedTooDeeply)).map Node.tokens =
      [leftOut] := by decide +kernel
  have one : leftOut ∈ ((parseTokens tokens).1.errors.filter (·.isAbout .nestedTooDeeply)).map
      Node.tokens := by rw [found]; exact List.mem_singleton_self _
  obtain ⟨problem, member, held⟩ := List.mem_map.mp one
  obtain ⟨wrong, about⟩ := List.mem_filter.mp member
  obtain ⟨range, rfl⟩ : ∃ range, problem = .error "Blocks are nested too deeply." range leftOut := by
    cases problem with
    | error message range skipped =>
      obtain rfl := of_decide_eq_true about
      exact ⟨range, by rw [← held]; rfl⟩
    | _ => cases about
  obtain ⟨path, way, last⟩ := Node.exists_descends_of_mem_walk (List.mem_of_mem_filter wrong)
  obtain ⟨blocks, _, leftOut⟩ := parseTokens_bounds_depth tokens way
  obtain ⟨⟨outer, around, split, full, _⟩, _⟩ := leftOut range _ last
  exact ⟨path, range, way, blocks, last, outer, around, split, full⟩

end LineScript
