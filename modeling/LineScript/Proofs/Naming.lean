import LineScript.Proofs.Coverage
import LineScript.Proofs.Ledger
import LineScript.Proofs.Placement
import Mathlib.Data.List.Perm.Subperm

namespace LineScript

open Grammar

namespace Node

/-- The name that an operand is. -/
def name? : Node → Option Token
  | atomic token => if token.kind = .name then some token else none
  | _ => none

/-- The names among the operands under a node. -/
def names (node : Node) : List Token := node.walk.filterMap name?

theorem names_binary (left : Node) (operator : Token) (right : Node) :
    (binary left operator right).names = left.names ++ right.names := by
  simp only [names, walk, List.filterMap_append,
    List.filterMap_cons_none (show name? (binary left operator right) = none from rfl)]

theorem names_call (callee : Node) (opening : Token) (closing : Node) :
    (call callee opening none closing).names = callee.names ++ closing.names := by
  simp only [names, walk, List.filterMap_append,
    List.filterMap_cons_none (show name? (call callee opening none closing) = none from rfl)]

theorem names_callWith (callee : Node) (opening : Token) (argument closing : Node) :
    (call callee opening (some argument) closing).names =
      callee.names ++ (argument.names ++ closing.names) := by
  simp only [names, walk, List.filterMap_append,
    List.filterMap_cons_none (show name? (call callee opening (some argument) closing) = none from rfl)]

theorem kind_of_mem_names {node : Node} {token : Token} (member : token ∈ node.names) :
    token.kind = .name := by
  obtain ⟨part, _, name⟩ := List.mem_filterMap.mp member
  cases part with
  | atomic other =>
    by_cases kind : other.kind = .name
    · obtain rfl : other = token := by simpa [name?, kind] using name
      exact kind
    · simp [name?, kind] at name
  | _ => cases name

/-- The names that a statement, or the header of a block, uses. -/
def uses : Node → List Token
  | binding .assign _ name _ value _ => value.names ++ [name]
  | binding _ _ _ _ value _ => value.names
  | expression value _ => value.names
  | block _ _ condition _ _ _ => condition.names
  | _ => []

/-- The name that a statement declares. -/
def binds : Node → Option Token
  | binding .introduce _ name _ _ _ => some name
  | _ => none

end Node

namespace NameEvent

def token? : NameEvent → Option Token
  | declare token => some token
  | refer token => some token
  | _ => none

end NameEvent

namespace Grammar

variable {used : List Token} {node : Node}

theorem keptFailures_silent {complaint : Complaint} (failed : keptFailures complaint used node) :
    node.events = [] ∧ node.names = [] ∧ node.uses = [] ∧ node.binds = none := by
  obtain ⟨range, rfl⟩ := failed
  exact ⟨rfl, rfl, rfl, rfl⟩

theorem Expected.names {kind : TokenKind} {complaint : Complaint}
    (derived : Expected keptFailures kind complaint used node) : node.names = [] := by
  cases derived with
  | found => rfl
  | missed failed => exact (keptFailures_silent failed).2.1

theorem atomic_events (token : Token) :
    (Node.atomic token).events = (Node.atomic token).names.map .refer ∧
      (Node.atomic token).names.Sublist [token] := by
  by_cases kind : token.kind = .name <;> simp [Node.events, Node.names, Node.walk, Node.name?, kind]

theorem Atom.events (derived : Atom keptFailures used node) :
    node.events = node.names.map .refer ∧ node.names.Sublist used := by
  cases derived with
  | found => exact atomic_events _
  | missed failed =>
    obtain ⟨events, names, _⟩ := keptFailures_silent failed
    simp [events, names]

/-- An expression uses its operands, from left to right. -/
theorem Expression.events (derived : Expression keptFailures used node) :
    node.events = node.names.map .refer ∧ node.names.Sublist used := by
  cases derived with
  | operand operand => exact operand.events
  | @binary left operator _ right _ _ operand =>
    obtain ⟨first, inFirst⟩ := atomic_events left
    obtain ⟨second, inSecond⟩ := operand.events
    rw [Node.events, first, second, Node.names_binary, List.map_append]
    exact ⟨rfl, inFirst.append (inSecond.cons _)⟩
  | @call callee opening _ closing _ _ closed =>
    obtain ⟨first, inFirst⟩ := atomic_events callee
    rw [Node.events, first, Node.names_call, closed.names, List.append_nil]
    exact ⟨rfl, inFirst.trans (by simp)⟩
  | @callWith callee opening argument _ closing _ _ _ closed =>
    obtain ⟨first, inFirst⟩ := atomic_events callee
    obtain ⟨second, inSecond⟩ := atomic_events argument
    rw [Node.events, first, second, Node.names_callWith, closed.names, List.append_nil,
      List.map_append]
    exact ⟨rfl, inFirst.append ((inSecond.trans (by simp)).cons _)⟩

theorem Assigned.events {value : Option Token × Node} (derived : Assigned keptFailures used value) :
    value.2.events = value.2.names.map .refer ∧ value.2.names.Sublist used := by
  cases derived with
  | found _ value =>
    obtain ⟨events, names⟩ := value.events
    exact ⟨events, names.cons _⟩
  | missed failed =>
    obtain ⟨events, names, _⟩ := keptFailures_silent failed
    simp [events, names]

/-- The names of a binding are among its tokens, whichever comes first. -/
theorem binding_subperm {names inValue after : List Token} (inside : names.Sublist inValue)
    (keyword name : Token) : (names ++ [name]).Subperm (keyword :: name :: (inValue ++ after)) := by
  have value : (name :: names).Sublist (name :: (inValue ++ after)) :=
    (inside.trans (List.sublist_append_left _ _)).cons_cons _
  exact (List.perm_append_singleton name names).subperm.trans (value.cons _).subperm

/-- A statement that is no block uses names, and then declares at most one. -/
theorem Simple.events (derived : Simple keptFailures used node) :
    node.events = node.uses.map .refer ++ node.binds.toList.map .declare ∧
      (node.uses ++ node.binds.toList).Subperm used ∧
      ∀ token ∈ node.uses ++ node.binds.toList, token.kind = .name := by
  have silent {complaint : Complaint} (failed : keptFailures complaint used node) :
      node.events = node.uses.map .refer ++ node.binds.toList.map .declare ∧
        (node.uses ++ node.binds.toList).Subperm used ∧
        ∀ token ∈ node.uses ++ node.binds.toList, token.kind = .name := by
    obtain ⟨events, _, uses, binds⟩ := keptFailures_silent failed
    simp [events, uses, binds]
  cases derived with
  | @binding form keyword name inValue value after terminator opens named assigned =>
    obtain ⟨events, inside⟩ := assigned.events
    have kinds : ∀ token ∈ value.2.names ++ [name], token.kind = .name := by
      intro token member
      rcases List.mem_append.mp member with used | last
      · exact Node.kind_of_mem_names used
      · rwa [List.mem_singleton.mp last]
    cases form with
    | introduce =>
      simp only [Node.events, Node.uses, Node.binds, events]
      exact ⟨rfl, binding_subperm inside keyword name, kinds⟩
    | assign =>
      simp only [Node.events, Node.uses, Node.binds, events, Option.toList_none, List.append_nil]
      exact ⟨by simp, binding_subperm inside keyword name, kinds⟩
    | plain => cases kind : keyword.kind <;> simp [kind, bindingForm?] at opens
  | @expression inValue value after terminator expression =>
    obtain ⟨events, inside⟩ := expression.events
    simp only [Node.events, Node.uses, Node.binds, events, Option.toList_none, List.append_nil]
    exact ⟨by simp, (inside.trans (List.sublist_append_left _ _)).subperm,
      fun token member => Node.kind_of_mem_names member⟩
  | nameless failed => exact silent failed
  | unexpectedEnd failed => exact silent failed
  | unreadable failed => exact silent failed

end Grammar

theorem playable_refer {tokens : List Token} (names : ∀ token ∈ tokens, IsName token) {depth : Nat}
    {rest : List NameEvent} (later : Playable depth rest) :
    Playable depth (tokens.map .refer ++ rest) := by
  induction tokens with
  | nil => exact later
  | cons token tokens ih =>
    rw [List.forall_mem_cons] at names
    exact ⟨names.1, ih names.2⟩

theorem playable_declare {token? : Option Token} (names : ∀ token ∈ token?, IsName token) {depth : Nat}
    {rest : List NameEvent} (later : Playable depth rest) :
    Playable depth (token?.toList.map .declare ++ rest) := by
  cases token? with
  | none => exact later
  | some token => exact ⟨names token rfl, later⟩

namespace Grammar

variable {used : List Token}

theorem Statements.playable {depth : Int} {nodes : List Node}
    (derived : Statements keptFailures depth used nodes)
    (named : ∀ token ∈ used, token.kind = .name → token.text ≠ "") {level : Nat}
    {rest : List NameEvent} (later : Playable level rest) :
    Playable level (Node.eventsOf nodes ++ rest) := by
  induction derived generalizing level rest with
  | nil => exact later
  | stray _ _ ih => exact ih (fun token member => named token (List.mem_cons_of_mem _ member)) later
  | simple statement _ ih =>
    rw [List.forall_mem_append] at named
    obtain ⟨events, inside, kinds⟩ := statement.events
    have isName : ∀ token ∈ _, IsName token := fun token member =>
      ⟨kinds token member, named.1 token (inside.subset member) (kinds token member)⟩
    rw [List.forall_mem_append] at isName
    rw [Node.eventsOf, events, List.append_assoc, List.append_assoc]
    exact playable_refer isName.1 (playable_declare (by simpa using isName.2) (ih named.2 later))
  | block _ _ test _ _ _ _ ihBody ihAfter =>
    simp only [List.forall_mem_cons, List.forall_mem_append] at named
    obtain ⟨_, inCondition, _, inBody, _, inAfter⟩ := named
    obtain ⟨events, inside⟩ := test.events
    have isName : ∀ token ∈ _, IsName token := fun token member =>
      have kind := Node.kind_of_mem_names member
      ⟨kind, inCondition token (inside.subset member) kind⟩
    have body := ihBody inBody (show Playable (level + 1) (.leave :: _) from ihAfter inAfter later)
    simp only [Node.eventsOf, Node.events, events, List.append_assoc, List.cons_append,
      List.nil_append]
    exact playable_refer isName body
  | tooDeep _ failed _ ih =>
    rw [List.forall_mem_append] at named
    rw [Node.eventsOf, (keptFailures_silent failed).1]
    exact ih named.2 later

theorem refer_tokens (tokens : List Token) :
    (tokens.map NameEvent.refer).filterMap NameEvent.token? = tokens := by
  rw [List.filterMap_map]
  exact List.filterMap_some

theorem declare_tokens (token? : Option Token) :
    (token?.toList.map NameEvent.declare).filterMap NameEvent.token? = token?.toList := by
  cases token? <;> rfl

/-- No token of a program takes part in two events. -/
theorem Statements.subperm {depth : Int} {nodes : List Node}
    (derived : Statements keptFailures depth used nodes) :
    ((Node.eventsOf nodes).filterMap NameEvent.token?).Subperm used := by
  induction derived with
  | nil => exact .refl []
  | stray _ _ ih => exact ih.cons_right _
  | simple statement _ ih =>
    obtain ⟨events, inside, _⟩ := statement.events
    rw [Node.eventsOf, events, List.filterMap_append, List.filterMap_append, refer_tokens,
      declare_tokens]
    exact inside.append ih
  | block _ _ test _ _ _ _ ihBody ihAfter =>
    obtain ⟨events, inside⟩ := test.events
    have skip (first second : List Token) : second.Subperm (first ++ second) :=
      (List.sublist_append_right first second).subperm
    simp only [Node.eventsOf, Node.events, events, List.filterMap_append, List.filterMap_cons,
      NameEvent.token?, refer_tokens, List.filterMap_nil, List.append_nil, List.append_assoc]
    exact (inside.subperm.append
      ((ihBody.append (ihAfter.trans (skip _ _))).trans (skip _ _))).cons_right _
  | tooDeep _ failed _ ih =>
    rw [Node.eventsOf, (keptFailures_silent failed).1]
    exact ih.trans (List.sublist_append_right _ _).subperm

end Grammar

theorem ledger_tokens (blockScoping : Bool) (sight : Sight) (events : List NameEvent) :
    (ledger blockScoping sight events).map Entry.token = events.filterMap NameEvent.token? := by
  induction events generalizing sight with
  | nil => rfl
  | cons event rest ih =>
    rw [ledger, List.map_append, ih]
    cases event <;> rfl

/-- The tree of a text, as a program of the grammar with failed constructs. -/
theorem parseTokens_statements (source : String) : ∃ statements eof,
    (parseTokens (tokenize source)).1 = .program statements eof ∧
      Statements keptFailures 0 (linesTokens 0 0 (splitLines source.toList)) statements := by
  obtain ⟨eof, last, tokens⟩ := tokenize_eq source
  have inner := @linesTokens_inner 0 0 (splitLines source.toList)
  have sane := Parser.sane_of_append_eof inner last
  have derived := (Parser.program_reads sane (Parser.ofTokens_depth _)).1
  rw [parseTokens, tokens]
  rw [Parser.ofTokens_append_eof inner last] at derived ⊢
  obtain ⟨statements, derived, tree, _⟩ := derived.statements
  exact ⟨statements, eof, tree, derived⟩

/-- The tree of a text keeps its tokens but for ends of lines. -/
theorem parseTokens_covers_text (source : String) :
    Covers (parseTokens (tokenize source)).1.tokens (tokenize source) := by
  have covers := parseTokens_covers (tokenize source)
  obtain ⟨eof, last, tokens⟩ := tokenize_eq source
  rw [Parser.throughEnd_ofTokens] at covers
  rw [tokens] at covers ⊢
  rwa [Parser.ofTokens_append_eof linesTokens_inner last] at covers

/-- Every problem in the tree of a text is about tokens of the text that are lost. -/
theorem parseTokens_lost (source : String) :
    ∀ problem ∈ (parseTokens (tokenize source)).1.errors, Lost (tokenize source) problem := by
  obtain ⟨eof, last, tokens⟩ := tokenize_eq source
  have inner := @linesTokens_inner 0 0 (splitLines source.toList)
  have sane := Parser.sane_of_append_eof inner last
  have lost := (Parser.program_reads sane (Parser.ofTokens_depth _)).2.lost
  rw [parseTokens, tokens]
  rw [Parser.ofTokens_append_eof inner last] at lost ⊢
  exact lost

theorem parseTokens_playable (source : String) :
    Playable 0 (parseTokens (tokenize source)).1.events := by
  obtain ⟨statements, eof, tree, derived⟩ := parseTokens_statements source
  have playable := derived.playable
    (fun token member name => (name_start_lt_stop member name).1) (show Playable 0 [] from trivial)
  rw [List.append_nil] at playable
  rw [tree]
  exact playable

theorem Playable.isName {depth : Nat} {events : List NameEvent} (playable : Playable depth events) :
    ∀ token ∈ events.filterMap NameEvent.token?, IsName token := by
  fun_induction Playable depth events with
  | case1 => simp
  | case2 depth token rest ih => exact List.forall_mem_cons.mpr ⟨playable.1, ih playable.2⟩
  | case3 depth token rest ih => exact List.forall_mem_cons.mpr ⟨playable.1, ih playable.2⟩
  | case4 depth rest ih => exact ih playable
  | case5 => exact playable.elim
  | case6 depth rest ih => exact ih playable
  | case7 => exact playable.elim

/-- The entries of a text are about different names of it. -/
theorem ledger_of_text (source : String) (blockScoping : Bool) :
    ((ledger blockScoping .start (parseTokens (tokenize source)).1.events).map
        (·.token.id)).Nodup ∧
      ∀ entry ∈ ledger blockScoping .start (parseTokens (tokenize source)).1.events,
        entry.token ∈ linesTokens 0 0 (splitLines source.toList) ∧ IsName entry.token := by
  have names := (parseTokens_playable source).isName
  obtain ⟨statements, eof, tree, derived⟩ := parseTokens_statements source
  have tokens := ledger_tokens blockScoping .start (parseTokens (tokenize source)).1.events
  have subperm : ((ledger blockScoping .start (parseTokens (tokenize source)).1.events).map
      Entry.token).Subperm (linesTokens 0 0 (splitLines source.toList)) := by
    rw [tokens, tree]
    exact derived.subperm
  constructor
  · obtain ⟨sorted, perm, sublist⟩ := subperm
    have ids := (linesTokens_numbered 0 0 (splitLines source.toList)).ids_nodup
    have nodup := (perm.map Token.id).nodup_iff.mp (ids.sublist (sublist.map Token.id))
    rwa [List.map_map] at nodup
  · intro entry member
    have inside := List.mem_map_of_mem (f := Entry.token) member
    exact ⟨subperm.subset inside, names _ (tokens ▸ inside)⟩

end LineScript
