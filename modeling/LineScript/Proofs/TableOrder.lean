import LineScript.Proofs.Occurrences

namespace LineScript

namespace NameEvent

def declared? : NameEvent → Option Token
  | declare token => some token
  | _ => none

/-- What is named after a declaration stands behind it. -/
def Follows (first later : NameEvent) : Prop :=
  ∀ token ∈ first.declared?, ∀ other ∈ later.token?, token.id < other.id

theorem token?_of_declared? {event : NameEvent} {token : Token} (declared : event.declared? = some token) :
    event.token? = some token := by
  cases event with
  | declare name => exact declared
  | _ => cases declared

end NameEvent

open NameEvent

/-- Events about two stretches of tokens, the second behind the first. -/
theorem follows_append {used more : List Token} {events others : List NameEvent}
    (inUsed : events.filterMap token? ⊆ used) (inMore : others.filterMap token? ⊆ more)
    (apart : ∀ first ∈ used, ∀ second ∈ more, first.id < second.id)
    (one : events.Pairwise Follows) (two : others.Pairwise Follows) :
    (events ++ others).Pairwise Follows := by
  refine List.pairwise_append.mpr ⟨one, two, ?_⟩
  intro first early later late token declared other about
  exact apart token (inUsed (List.mem_filterMap.mpr ⟨first, early, token?_of_declared? declared⟩))
    other (inMore (List.mem_filterMap.mpr ⟨later, late, about⟩))

/-- What declares nothing does not restrict what comes after it. -/
theorem follows_cons {event : NameEvent} (silent : event.declared? = none) {events : List NameEvent}
    (follows : events.Pairwise Follows) : (event :: events).Pairwise Follows :=
  List.pairwise_cons.mpr ⟨fun _ _ => by simp [Follows, silent], follows⟩

theorem follows_refer {events : List NameEvent} (follows : events.Pairwise Follows)
    (tokens : List Token) : (tokens.map refer ++ events).Pairwise Follows := by
  induction tokens with
  | nil => exact follows
  | cons token rest ih => exact follows_cons rfl ih

namespace Grammar

variable {used : List Token} {node : Node}

theorem Simple.follows (derived : Simple keptFailures used node) :
    node.events.Pairwise Follows ∧ node.events.filterMap token? ⊆ used := by
  obtain ⟨events, inside, _⟩ := derived.events
  rw [events, List.filterMap_append, refer_tokens, declare_tokens]
  refine ⟨follows_refer ?_ _, inside.subset⟩
  cases node.binds <;> simp

/-- In the events of a program all that is named after a declaration stands behind it. -/
theorem Statements.follows {depth : Int} {nodes : List Node}
    (derived : Statements keptFailures depth used nodes)
    (increasing : used.Pairwise (·.id < ·.id)) : (Node.eventsOf nodes).Pairwise Follows := by
  induction derived with
  | nil => exact .nil
  | stray _ _ ih => exact ih increasing.tail
  | simple statement rest ih =>
    obtain ⟨_, later, apart⟩ := List.pairwise_append.mp increasing
    obtain ⟨follows, inside⟩ := statement.follows
    exact follows_append inside rest.subperm.subset apart follows (ih later)
  | @block _ _ _ _ _ _ _ _ nodes _ _ inBody _ _ _ test _ body _ rest ihBody ihAfter =>
    obtain ⟨_, order, _⟩ := List.pairwise_append.mp increasing.tail
    obtain ⟨_, order, _⟩ := List.pairwise_append.mp order
    obtain ⟨within, order, apart⟩ := List.pairwise_append.mp order
    obtain ⟨_, later, _⟩ := List.pairwise_append.mp order
    have behind : (NameEvent.leave :: Node.eventsOf nodes).Pairwise Follows :=
      follows_cons rfl (ihAfter later)
    simp only [Node.eventsOf, Node.events, test.events.1, List.append_assoc, List.cons_append,
      List.nil_append]
    apply follows_refer
    apply follows_cons rfl
    exact follows_append body.subperm.subset rest.subperm.subset
      (fun first early second late => apart first early second (List.mem_append_right _ late))
      (ihBody within) behind
  | tooDeep _ failed _ ih =>
    rw [Node.eventsOf, (keptFailures_silent failed).1]
    exact ih (List.pairwise_append.mp increasing).2.1

end Grammar

theorem declarations_ledger (blockScoping : Bool) (sight : Sight) (events : List NameEvent) :
    declarations (ledger blockScoping sight events) = events.filterMap declared? := by
  induction events generalizing sight with
  | nil => rfl
  | cons event rest ih =>
    rw [ledger, declarations_append, ih]
    cases event <;> rfl

/-- A name that is used stands behind the declaration that it is used for. -/
theorem ledger_owner_lt {events : List NameEvent} (follows : events.Pairwise Follows)
    (blockScoping : Bool) {sight : Sight}
    (behind : ∀ decl ∈ sight.all, ∀ token ∈ events.filterMap token?, decl.token.id < token.id) :
    ∀ token decl, .referred token (some decl) ∈ ledger blockScoping sight events →
      decl.token.id < token.id := by
  induction events generalizing sight with
  | nil => simp [ledger]
  | cons event rest ih =>
    intro token decl member
    rcases List.mem_append.mp member with here | later
    · cases event with
      | refer other =>
        obtain ⟨rfl, found⟩ := Entry.referred.inj (Option.some.inj (Option.mem_toList.mp here))
        exact behind decl (List.mem_of_find?_eq_some found) _ List.mem_cons_self
      | declare other => cases Option.mem_toList.mp here
      | enter | leave | reject => cases here
    · rw [List.pairwise_cons] at follows
      refine ih follows.2 ?_ token decl later
      intro known inSight other named
      rcases Sight.mem_step inSight with old | ⟨name, rfl, rfl⟩
      · have named' : other ∈ (event :: rest).filterMap token? := by
          rw [← List.singleton_append, List.filterMap_append]
          exact List.mem_append_right _ named
        exact behind known old other named'
      · obtain ⟨next, member, about⟩ := List.mem_filterMap.mp named
        exact follows.1 next member name rfl other about

/-- A ledger in which names stand in the order of their ids, as far as declarations are concerned. -/
structure InOrder (entries : List Entry) : Prop where
  declared : (declarations entries).Pairwise (·.id < ·.id)
  used : ∀ token decl, .referred token (some decl) ∈ entries → decl.token.id < token.id

theorem entriesOf_inOrder (source : String) (blockScoping : Bool) :
    InOrder (entriesOf source blockScoping) := by
  obtain ⟨statements, eof, tree, derived⟩ := parseTokens_statements source
  have follows : (parseTokens (tokenize source)).1.events.Pairwise Follows := by
    rw [tree]
    exact derived.follows (linesTokens_numbered 0 0 (splitLines source.toList)).increasing
  constructor
  · rw [entriesOf, declarations_ledger, List.pairwise_filterMap]
    apply follows.imp
    intro first later behind token declared other also
    exact behind token declared other (token?_of_declared? also)
  · exact ledger_owner_lt follows blockScoping (by simp [Sight.all, Sight.start])

theorem mergeSort_increasing {ids : List Int} (nodup : ids.Nodup) :
    (ids.mergeSort (· ≤ ·)).Pairwise (· < ·) := by
  have trans : ∀ first second third : Int, decide (first ≤ second) → decide (second ≤ third) →
      decide (first ≤ third) := by simpa using fun _ _ _ => Int.le_trans
  have total : ∀ first second : Int, decide (first ≤ second) || decide (second ≤ first) := by
    simpa using Int.le_total
  have sorted := List.pairwise_mergeSort trans total ids
  have apart := (List.mergeSort_perm ids (· ≤ ·)).nodup_iff.mpr nodup
  apply (sorted.and apart).imp
  intro first second both
  exact Int.lt_iff_le_and_ne.mpr ⟨of_decide_eq_true both.1, both.2⟩

theorem definitions_draftOf (entries : List Entry) :
    (draftOf entries).build.symbols.map (·.definitions) =
      (declarations entries).map fun token => [token.id] := by
  apply List.ext_getElem?
  intro number
  cases found : (declarations entries)[number]? with
  | none => simp [symbols_draftOf, found]
  | some token => simp [symbols_getElem? found, found]

/-- What is true of every symbol table: symbols are numbered in the order of their definitions, the
occurrences of a symbol are names of its text from its one definition on, and the owner of a token is
the one symbol that it is an occurrence of. -/
structure SymbolTable.WellFormed (table : SymbolTable) (tokens : List Token) : Prop where
  ids : ∀ (number : Nat) symbol, table.symbols[number]? = some symbol → symbol.id = number
  defined : ∀ symbol ∈ table.symbols, ∃ definition, symbol.definitions = [definition]
  ordered : (table.symbols.flatMap (·.definitions)).Pairwise (· < ·)
  named : ∀ symbol ∈ table.symbols, ∀ id ∈ symbol.occurrences,
    ∃ token ∈ tokens, token.id = id ∧ token.kind = .name ∧ token.text = symbol.name
  increasing : ∀ symbol ∈ table.symbols, symbol.occurrences.Pairwise (· < ·)
  apart : (table.symbols.flatMap (·.occurrences)).Nodup
  owner : ∀ id number, table.owners.get? id = some number ↔
    ∃ symbol ∈ table.symbols, symbol.id = number ∧ id ∈ symbol.occurrences

namespace Consistent

variable {entries : List Entry} (consistent : Consistent entries)
include consistent

/-- The one definition of a symbol comes before its references. -/
theorem occurrences_increasing (order : InOrder entries) {number : Nat} {symbol : Symbol}
    (found : (draftOf entries).build.symbols[number]? = some symbol) :
    symbol.occurrences.Pairwise (· < ·) := by
  obtain ⟨token, declared, rfl⟩ := symbols_getElem?_iff.mp found
  refine List.pairwise_cons.mpr ⟨?_, mergeSort_increasing (usesOf_nodup consistent.nodup number)⟩
  intro id used
  obtain ⟨other, decl, referred, rfl, rfl⟩ := mem_usesOf.mp (List.mem_mergeSort.mp used)
  have same := consistent.owner (.referred other (some decl)) referred decl rfl
  rw [declared, Option.some_inj] at same
  rw [same]
  exact order.used other decl referred

/-- A token is owned by the symbol that it is an occurrence of. -/
theorem owners_get?_iff {id number : Int} :
    (draftOf entries).build.owners.get? id = some number ↔
      ∃ symbol ∈ (draftOf entries).build.symbols, symbol.id = number ∧ id ∈ symbol.occurrences := by
  constructor
  · intro owned
    have key : id ∈ (draftOf entries).build.owners.keys := by
      apply Decidable.byContradiction
      intro absent
      cases owned.symm.trans (OrderedMap.get?_eq_none absent)
    obtain ⟨entry, member, _, rfl⟩ := mem_keys_draftOf.mp key
    rw [owners_get? consistent.nodup member] at owned
    obtain ⟨decl, owner, rfl⟩ := Option.map_eq_some_iff.mp owned
    have found := symbols_getElem? (consistent.owner entry member decl owner)
    refine ⟨_, List.mem_of_getElem? found, rfl, ?_⟩
    rw [consistent.mem_occurrences found member]
    simp [owner]
  · rintro ⟨symbol, member, rfl, occurs⟩
    obtain ⟨place, found⟩ := List.mem_iff_getElem?.mp member
    obtain ⟨entry, inside, rfl, _⟩ := consistent.exists_of_mem_occurrences found occurs
    rw [consistent.mem_occurrences found inside] at occurs
    obtain ⟨decl, owner, same⟩ := (Option.any_eq_true _ _).mp occurs
    obtain ⟨token, _, rfl⟩ := symbols_getElem?_iff.mp found
    rw [owners_get? consistent.nodup inside, owner, ← of_decide_eq_true same]
    rfl

/-- No token is an occurrence of two symbols. -/
theorem symbol_eq_of_mem_occurrences {first second : Nat} {one two : Symbol} {id : Int}
    (inFirst : (draftOf entries).build.symbols[first]? = some one)
    (inSecond : (draftOf entries).build.symbols[second]? = some two)
    (ofOne : id ∈ one.occurrences) (ofTwo : id ∈ two.occurrences) : first = second := by
  obtain ⟨entry, member, rfl, _⟩ := consistent.exists_of_mem_occurrences inFirst ofOne
  rw [consistent.mem_occurrences inFirst member] at ofOne
  rw [consistent.mem_occurrences inSecond member] at ofTwo
  obtain ⟨decl, owner, isFirst⟩ := (Option.any_eq_true _ _).mp ofOne
  rw [owner, Option.any_some] at ofTwo
  exact (of_decide_eq_true isFirst).symm.trans (of_decide_eq_true ofTwo)

theorem wellFormed (order : InOrder entries) {tokens : List Token}
    (names : ∀ entry ∈ entries, entry.token ∈ tokens ∧ entry.token.kind = .name) :
    (draftOf entries).build.WellFormed tokens where
  ids number symbol found := by
    obtain ⟨token, _, rfl⟩ := symbols_getElem?_iff.mp found
    rfl
  defined symbol member := by
    obtain ⟨number, found⟩ := List.mem_iff_getElem?.mp member
    obtain ⟨token, _, rfl⟩ := symbols_getElem?_iff.mp found
    exact ⟨token.id, rfl⟩
  ordered := by
    have ids : (draftOf entries).build.symbols.flatMap (·.definitions) =
        (declarations entries).map (·.id) := by
      rw [List.flatMap_def, definitions_draftOf, ← List.flatMap_def, ← List.map_eq_flatMap]
    rw [ids, List.pairwise_map]
    exact order.declared
  named symbol member id occurs := by
    obtain ⟨number, found⟩ := List.mem_iff_getElem?.mp member
    obtain ⟨entry, inside, same, text⟩ := consistent.exists_of_mem_occurrences found occurs
    exact ⟨entry.token, (names entry inside).1, same, (names entry inside).2, text⟩
  increasing symbol member := by
    obtain ⟨number, found⟩ := List.mem_iff_getElem?.mp member
    exact consistent.occurrences_increasing order found
  apart := by
    rw [List.nodup_flatMap]
    constructor
    · intro symbol member
      obtain ⟨number, found⟩ := List.mem_iff_getElem?.mp member
      exact consistent.occurrences_nodup found
    · rw [List.pairwise_iff_getElem]
      intro first second inFirst inSecond order id ofOne ofTwo
      have same := consistent.symbol_eq_of_mem_occurrences (List.getElem?_eq_getElem inFirst)
        (List.getElem?_eq_getElem inSecond) ofOne ofTwo
      omega
  owner _ _ := consistent.owners_get?_iff

end Consistent

/-- The symbol table of every text is well formed. -/
theorem analyze_table_wellFormed (source : String) (blockScoping : Bool) :
    ∃ model, analyze source blockScoping = .ok model ∧ model.table.WellFormed model.tokens := by
  refine ⟨_, analyze_eq source blockScoping, ?_⟩
  apply (entriesOf_consistent source blockScoping).wellFormed (entriesOf_inOrder source blockScoping)
  intro entry member
  obtain ⟨inside, name, _⟩ := (ledger_of_text source blockScoping).2 entry member
  exact ⟨mem_tokenize_of_mem inside, name⟩

/-- A declaration that uses the name that it hides. -/
theorem analyze_table_wellFormed_of_hiding : ∃ model,
    analyze "let x = 1\nlet x = x\nx\n" true = .ok model ∧ model.table.WellFormed model.tokens ∧
      model.table.symbols.map (·.occurrences) = [[1, 8], [6, 10]] := by
  obtain ⟨model, analyzed, wellFormed⟩ := analyze_table_wellFormed "let x = 1\nlet x = x\nx\n" true
  have there : (analyze "let x = 1\nlet x = x\nx\n" true).map
      (·.table.symbols.map (·.occurrences)) = .ok [[1, 8], [6, 10]] := by decide +kernel
  rw [analyzed] at there
  exact ⟨model, analyzed, wellFormed, Except.ok.inj there⟩

end LineScript
