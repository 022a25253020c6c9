import LineScript.Proofs.Hits
import LineScript.Proofs.TableOrder

namespace LineScript

theorem exists_of_forall₂ {α β : Type} {related : α → β → Prop} {items : List α} {others : List β}
    (pairs : List.Forall₂ related items others) {item : α} (member : item ∈ items) :
    ∃ other ∈ others, related item other := by
  induction pairs with
  | nil => cases member
  | cons pair _ ih =>
    rcases List.mem_cons.mp member with rfl | later
    · exact ⟨_, List.mem_cons_self, pair⟩
    · obtain ⟨other, behind, same⟩ := ih later
      exact ⟨other, List.mem_cons_of_mem _ behind, same⟩

theorem Tiled.eq_of_contains {tokens : List Token} (tiled : Tiled tokens) {first second : Token}
    (one : first ∈ tokens) (two : second ∈ tokens) {position : Position}
    (inFirst : first.range.contains position) (inSecond : second.range.contains position) :
    second = first := by
  have member : second ∈ tokens.filter (·.range.contains position) :=
    List.mem_filter.mpr ⟨two, inSecond⟩
  rw [tiled.filter_contains one inFirst] at member
  exact List.mem_singleton.mp member

namespace SymbolTable.WellFormed

variable {table : SymbolTable} {tokens : List Token} (wellFormed : table.WellFormed tokens)
include wellFormed

theorem symbol_eq {symbol : Symbol} (member : symbol ∈ table.symbols) :
    table.symbol symbol.id = .ok symbol := by
  obtain ⟨place, found⟩ := List.mem_iff_getElem?.mp member
  obtain ⟨bound, same⟩ := List.getElem?_eq_some_iff.mp found
  simp [SymbolTable.symbol, wellFormed.ids place symbol found, bound, same]

theorem eq_of_mem_occurrences {first second : Symbol} (one : first ∈ table.symbols)
    (two : second ∈ table.symbols) {id : Int} (inFirst : id ∈ first.occurrences)
    (inSecond : id ∈ second.occurrences) : second = first := by
  have ofFirst := (wellFormed.owner id first.id).mpr ⟨first, one, rfl, inFirst⟩
  have ofSecond := (wellFormed.owner id second.id).mpr ⟨second, two, rfl, inSecond⟩
  have same : second.id = first.id := Option.some.inj (ofSecond.symm.trans ofFirst)
  have there := wellFormed.symbol_eq two
  rw [same, wellFormed.symbol_eq one] at there
  exact (Except.ok.inj there).symm

/-- Every token can be looked up, and the answer is the symbol that the token is an occurrence of. -/
theorem symbolOf_eq (id : Int) : ∃ found, table.symbolOf id = .ok found ∧
    ∀ symbol, found = some symbol ↔ symbol ∈ table.symbols ∧ id ∈ symbol.occurrences := by
  unfold symbolOf
  cases owned : table.owners.get? id with
  | none =>
    refine ⟨none, rfl, fun symbol => ⟨nofun, ?_⟩⟩
    rintro ⟨member, occurs⟩
    have owner := (wellFormed.owner id symbol.id).mpr ⟨symbol, member, rfl, occurs⟩
    cases owned.symm.trans owner
  | some number =>
    obtain ⟨symbol, member, rfl, occurs⟩ := (wellFormed.owner id number).mp owned
    refine ⟨some symbol, by simp [wellFormed.symbol_eq member, Except.map], fun other => ?_⟩
    constructor
    · intro same
      cases same
      exact ⟨member, occurs⟩
    · rintro ⟨also, inOther⟩
      rw [wellFormed.eq_of_mem_occurrences member also occurs inOther]

end SymbolTable.WellFormed

namespace Model

/-- What the questions about a cursor rest on: a token's id is its place, a position is found in the one
token around it, and the symbols have their occurrences among the names. -/
structure Searchable (model : Model) : Prop where
  numbered : Numbered 0 model.tokens
  tiled : Tiled model.tokens
  located : ∀ position, ∃ hit, model.tokenAt position = .ok hit ∧
    ∀ token, hit = some token ↔ token ∈ model.tokens ∧ token.range.contains position
  table : model.table.WellFormed model.tokens
  names : ∀ symbol ∈ model.table.symbols, ∃ names : List Token,
    names.map (·.id) = symbol.occurrences ∧ ∀ token ∈ names, token ∈ model.tokens

end Model

/-- Going down the tree of a text finds the token around a position. -/
theorem tokenAt_of_contains {source : String} {blockScoping : Bool} {model : Model}
    (analyzed : analyze source blockScoping = .ok model) {token : Token}
    (member : token ∈ model.tokens) {position : Position} (here : token.range.contains position) :
    model.tokenAt position = .ok (some token) := by
  cases (analyze_eq source blockScoping).symm.trans analyzed
  have covers := parseTokens_covers_text source
  have lost := parseTokens_lost source
  obtain ⟨statements, eof, tree, derived⟩ := parseTokens_statements source
  have located := Node.locate_program derived.known eof position
  have kept : token ∈ (parseTokens (tokenize source)).1.tokens.filter (·.kind ≠ .endOfLine) := by
    rw [covers.others]
    exact List.mem_filter.mpr ⟨member, by simpa using kind_ne_of_contains member here⟩
  simp only [tree] at covers lost kept ⊢
  have found := Node.descend_finds (tokenize_tiled source) here rfl covers.sublist lost
    (List.mem_of_mem_filter kept) []
  simp only [Model.tokenAt, Model.locate, located, ← found]
  rfl

/-- What is found in the tree of a text is a token of the text that lies there. -/
theorem mem_of_tokenAt {source : String} {blockScoping : Bool} {model : Model}
    (analyzed : analyze source blockScoping = .ok model) (position : Position) :
    ∃ hit, model.tokenAt position = .ok hit ∧
      ∀ token ∈ hit, token ∈ model.tokens ∧ token.range.contains position := by
  cases (analyze_eq source blockScoping).symm.trans analyzed
  have covers := parseTokens_covers_text source
  obtain ⟨statements, eof, tree, derived⟩ := parseTokens_statements source
  have located := Node.locate_program derived.known eof position
  simp only [tree] at covers ⊢
  refine ⟨_, by simp only [Model.tokenAt, Model.locate, located]; rfl, fun token found => ?_⟩
  obtain ⟨hit, descended, rfl⟩ := Option.map_eq_some_iff.mp found
  obtain ⟨here, inside, _⟩ := Node.descend_leads descended
  exact ⟨covers.sublist.subset inside, here⟩

theorem analyze_searchable {source : String} {blockScoping : Bool} {model : Model}
    (analyzed : analyze source blockScoping = .ok model) : model.Searchable := by
  have found : ∀ token ∈ model.tokens, ∀ position, token.range.contains position →
      model.tokenAt position = .ok (some token) :=
    fun _ member _ here => tokenAt_of_contains analyzed member here
  have held := mem_of_tokenAt analyzed
  cases (analyze_eq source blockScoping).symm.trans analyzed
  refine ⟨tokenize_numbered source, tokenize_tiled source, ?_, ?_, ?_⟩
  · intro position
    obtain ⟨hit, located, inside⟩ := held position
    refine ⟨hit, located, fun token => ⟨inside token, ?_⟩⟩
    rintro ⟨member, here⟩
    exact Except.ok.inj (located.symm.trans (found token member position here))
  · apply (entriesOf_consistent source blockScoping).wellFormed
      (entriesOf_inOrder source blockScoping)
    intro entry member
    obtain ⟨inside, name, _⟩ := (ledger_of_text source blockScoping).2 entry member
    exact ⟨mem_tokenize_of_mem inside, name⟩
  · intro symbol member
    obtain ⟨number, listed⟩ := List.mem_iff_getElem?.mp member
    obtain ⟨names, ids, all⟩ := exists_names listed
    exact ⟨names, ids, fun token named => mem_tokenize_of_mem (all token named).1⟩

namespace Model

theorem symbolAt_of_tokenAt {model : Model} {position : Position} {hit : Option Token}
    (located : model.tokenAt position = .ok hit) :
    model.symbolAt position = hit.elim (.ok none) model.symbolOfToken := by
  cases hit <;> simp [symbolAt, located, bind, Except.bind, pure, Except.pure]

theorem renameRange_of_tokenAt {model : Model} {position : Position} {token : Token}
    (located : model.tokenAt position = .ok (some token)) {found : Option Symbol}
    (owner : model.symbolOfToken token = .ok found) :
    model.renameRange position = .ok (found.map fun _ => token.range) := by
  simp [renameRange, located, owner, bind, Except.bind, pure, Except.pure]

/-- Answers that depend on the symbol at a position only. -/
theorem answers_of_symbolAt {model : Model} {first second : Position}
    (same : model.symbolAt first = model.symbolAt second) :
    model.highlights first = model.highlights second ∧
      (∀ newName, model.renameEdits first newName = model.renameEdits second newName) ∧
      ∀ withDeclaration, model.references first withDeclaration =
        model.references second withDeclaration := by
  simp only [highlights, renameEdits, references, same, implies_true, and_self]

namespace Searchable

variable {model : Model} (searchable : model.Searchable)
include searchable

/-- A token with the id of an occurrence is a name. -/
theorem kind_of_occurs {symbol : Symbol} (member : symbol ∈ model.table.symbols) {token : Token}
    (inside : token ∈ model.tokens) (occurs : token.id ∈ symbol.occurrences) :
    token.kind = .name := by
  obtain ⟨other, also, same, name, _⟩ := searchable.table.named symbol member token.id occurs
  rwa [← List.inj_on_of_nodup_map searchable.numbered.ids_nodup also inside same]

/-- A token stands for the symbol that it is an occurrence of. -/
theorem symbolOfToken_eq {token : Token} (inside : token ∈ model.tokens) :
    ∃ found, model.symbolOfToken token = .ok found ∧ ∀ symbol, found = some symbol ↔
      symbol ∈ model.table.symbols ∧ token.id ∈ symbol.occurrences := by
  unfold symbolOfToken
  split
  · exact searchable.table.symbolOf_eq token.id
  · next other =>
    refine ⟨none, rfl, fun symbol => ⟨nofun, ?_⟩⟩
    rintro ⟨member, occurs⟩
    exact absurd (searchable.kind_of_occurs member inside occurs) other

/-- The symbol at a position is the one with an occurrence around the position. -/
theorem symbolAt_eq (position : Position) :
    ∃ found, model.symbolAt position = .ok found ∧ ∀ symbol, found = some symbol ↔
      symbol ∈ model.table.symbols ∧ ∃ token ∈ model.tokens,
        token.id ∈ symbol.occurrences ∧ token.range.contains position := by
  obtain ⟨hit, located, held⟩ := searchable.located position
  rw [symbolAt_of_tokenAt located]
  cases hit with
  | none =>
    refine ⟨none, rfl, fun symbol => ⟨nofun, ?_⟩⟩
    rintro ⟨_, token, inside, _, here⟩
    cases (held token).mpr ⟨inside, here⟩
  | some token =>
    obtain ⟨inside, here⟩ := (held token).mp rfl
    obtain ⟨found, owner, owns⟩ := searchable.symbolOfToken_eq inside
    refine ⟨found, owner, fun symbol => (owns symbol).trans (and_congr_right fun _ => ?_)⟩
    constructor
    · intro occurs
      exact ⟨token, inside, occurs, here⟩
    · rintro ⟨other, also, occurs, around⟩
      rwa [searchable.tiled.eq_of_contains also inside around here]

/-- The names that a symbol's occurrences stand for: that of its definition, then those of its uses. -/
theorem exists_definition {symbol : Symbol} (member : symbol ∈ model.table.symbols) :
    ∃ (name : Token) (uses : List Token), (∀ token ∈ name :: uses, token ∈ model.tokens) ∧
      symbol.definitions = [name.id] ∧ symbol.references = uses.map (·.id) := by
  obtain ⟨names, ids, inside⟩ := searchable.names symbol member
  obtain ⟨definition, defined⟩ := searchable.table.defined symbol member
  rw [Symbol.occurrences, defined, List.singleton_append, List.map_eq_cons_iff] at ids
  obtain ⟨name, uses, rfl, rfl, references⟩ := ids
  exact ⟨name, uses, inside, defined, references.symm⟩

end Searchable

/-- The answers to the questions about a cursor on a symbol. They all are about one list of ranges,
those of the symbol's occurrences in their order, and they are the same from every place in it. -/
structure Answers (model : Model) (position : Position) (newName : String) (symbol : Symbol)
    (first : Range) (rest : List Range) : Prop where
  occurrences : List.Forall₂ (fun id range => ∃ token ∈ model.tokens, token.id = id ∧
    token.range = range) symbol.occurrences (first :: rest)
  highlights : model.highlights position = .ok (⟨.write, first⟩ :: rest.map (⟨.read, ·⟩))
  edits : model.renameEdits position newName = .ok (some ((first :: rest).map (⟨·, newName⟩)))
  references : model.references position true = .ok (first :: rest)
  uses : model.references position false = .ok rest
  renamed : ∃ range ∈ first :: rest, model.renameRange position = .ok (some range) ∧
    ∀ other ∈ first :: rest, other.contains position ↔ other = range
  everywhere : ∀ range ∈ first :: rest, ∀ place, range.contains place →
    model.symbolAt place = .ok (some symbol) ∧
    model.highlights place = model.highlights position ∧
    (∀ newName, model.renameEdits place newName = model.renameEdits position newName) ∧
    ∀ withDeclaration, model.references place withDeclaration =
      model.references position withDeclaration

namespace Searchable

variable {model : Model} (searchable : model.Searchable)
include searchable

/-- The name at a position is an occurrence of the symbol there. -/
theorem renameRange_eq {position : Position} {symbol : Symbol}
    (found : model.symbolAt position = .ok (some symbol)) :
    ∃ token ∈ model.tokens, token.id ∈ symbol.occurrences ∧ token.range.contains position ∧
      model.renameRange position = .ok (some token.range) := by
  obtain ⟨hit, located, held⟩ := searchable.located position
  rw [symbolAt_of_tokenAt located] at found
  cases hit with
  | none => cases found
  | some token =>
    obtain ⟨inside, here⟩ := (held token).mp rfl
    obtain ⟨answer, owner, owns⟩ := searchable.symbolOfToken_eq inside
    cases owner.symm.trans found
    exact ⟨token, inside, ((owns symbol).mp rfl).2, here, renameRange_of_tokenAt located owner⟩

variable {symbol : Symbol} {names : List Token} (ids : names.map (·.id) = symbol.occurrences)
  (inside : ∀ token ∈ names, token ∈ model.tokens)
include ids inside

/-- The range to rename is the one of the symbol's ranges that is around the position. -/
theorem renameRange_alone {position : Position}
    (found : model.symbolAt position = .ok (some symbol)) :
    ∃ range ∈ names.map (·.range), model.renameRange position = .ok (some range) ∧
      ∀ other ∈ names.map (·.range), other.contains position ↔ other = range := by
  obtain ⟨token, held, occurs, here, renamed⟩ := searchable.renameRange_eq found
  rw [← ids] at occurs
  obtain ⟨name, among, same⟩ := List.mem_map.mp occurs
  obtain rfl := List.inj_on_of_nodup_map searchable.numbered.ids_nodup (inside name among) held same
  refine ⟨name.range, List.mem_map_of_mem among, renamed, ?_⟩
  intro range listed
  obtain ⟨other, also, rfl⟩ := List.mem_map.mp listed
  constructor
  · intro around
    rw [searchable.tiled.eq_of_contains held (inside other also) here around]
  · intro same
    rwa [same]

/-- Each place in an occurrence of a symbol leads back to the symbol. -/
theorem symbolAt_of_occurrence (member : symbol ∈ model.table.symbols) :
    ∀ range ∈ names.map (·.range), ∀ place, range.contains place →
      model.symbolAt place = .ok (some symbol) := by
  intro range listed place around
  obtain ⟨token, among, rfl⟩ := List.mem_map.mp listed
  obtain ⟨found, answered, rule⟩ := searchable.symbolAt_eq place
  have occurs : token.id ∈ symbol.occurrences := ids ▸ List.mem_map_of_mem among
  rw [answered, (rule symbol).mpr ⟨member, token, inside token among, occurs, around⟩]

omit ids inside

theorem answers {position : Position} (found : model.symbolAt position = .ok (some symbol))
    (newName : String) : ∃ first rest, model.Answers position newName symbol first rest := by
  obtain ⟨answer, answered, rule⟩ := searchable.symbolAt_eq position
  cases answered.symm.trans found
  obtain ⟨member, _⟩ := (rule symbol).mp rfl
  obtain ⟨name, uses, inside, definitions, references⟩ := searchable.exists_definition member
  have ids : (name :: uses).map (·.id) = symbol.occurrences := by
    rw [Symbol.occurrences, definitions, references, List.map_cons, List.singleton_append]
  have written : model.rangesOf symbol.definitions = .ok [name.range] := by
    have present : ∀ token ∈ [name], token ∈ model.tokens := by
      simpa using inside name List.mem_cons_self
    rw [definitions]
    exact rangesOf_eq searchable.numbered present
  have read : model.rangesOf symbol.references = .ok (uses.map (·.range)) := by
    rw [references]
    exact rangesOf_eq searchable.numbered fun token used => inside token (List.mem_cons_of_mem name used)
  have all : model.rangesOf symbol.occurrences = .ok (name.range :: uses.map (·.range)) := by
    rw [← ids]
    exact rangesOf_eq searchable.numbered inside
  refine ⟨name.range, uses.map (·.range), ?_, ?_, ?_, ?_, ?_, ?_, ?_⟩
  · rw [← ids, ← List.map_cons, List.forall₂_map_left_iff, List.forall₂_map_right_iff,
      List.forall₂_same]
    exact fun token among => ⟨token, inside token among, rfl, rfl⟩
  · simp [Model.highlights, found, written, read, bind, Except.bind, pure, Except.pure]
  · simp [Model.renameEdits, found, all, bind, Except.bind, pure, Except.pure]
  · simp [Model.references, found, all, bind, Except.bind]
  · simp [Model.references, found, read, bind, Except.bind]
  · exact searchable.renameRange_alone ids inside found
  · intro range listed place around
    have again := searchable.symbolAt_of_occurrence ids inside member range listed place around
    exact ⟨again, answers_of_symbolAt (again.trans found.symm)⟩

/-- Off all symbols the answers are empty. -/
theorem answers_none {position : Position} (missing : model.symbolAt position = .ok none)
    (newName : String) :
    model.highlights position = .ok [] ∧ (∀ flag, model.references position flag = .ok []) ∧
      model.renameEdits position newName = .ok none ∧ model.renameRange position = .ok none := by
  refine ⟨?_, ?_, ?_, ?_⟩
  · simp [Model.highlights, missing, bind, Except.bind, pure, Except.pure]
  · simp [Model.references, missing, bind, Except.bind, pure, Except.pure]
  · simp [Model.renameEdits, missing, bind, Except.bind, pure, Except.pure]
  · obtain ⟨hit, located, _⟩ := searchable.located position
    rw [symbolAt_of_tokenAt located] at missing
    cases hit with
    | none => simp [Model.renameRange, located, bind, Except.bind, pure, Except.pure]
    | some token => exact renameRange_of_tokenAt located missing

end Searchable

end Model

/-- The questions about a cursor agree with each other, and with those asked at any other occurrence of
the symbol there. -/
theorem cursor_answers_agree (source : String) (blockScoping : Bool) :
    ∃ model, analyze source blockScoping = .ok model ∧ ∀ position newName, ∃ found,
      model.symbolAt position = .ok found ∧
      (∀ symbol ∈ found, ∃ first rest, model.Answers position newName symbol first rest) ∧
      (found = none → model.highlights position = .ok [] ∧
        (∀ withDeclaration, model.references position withDeclaration = .ok []) ∧
        model.renameEdits position newName = .ok none ∧ model.renameRange position = .ok none) := by
  have analyzed := analyze_eq source blockScoping
  have searchable := analyze_searchable analyzed
  refine ⟨_, analyzed, fun position newName => ?_⟩
  obtain ⟨found, answered, _⟩ := searchable.symbolAt_eq position
  refine ⟨found, answered, ?_, ?_⟩
  · rintro symbol rfl
    exact searchable.answers answered newName
  · rintro rfl
    exact searchable.answers_none answered newName

/-- A name whose use stands beside an error, and which another declaration hides later on. -/
theorem cursor_answers_agree_on_hidden_name :
    let source := "let a = 1\nif a )\nlet a = 2\nend"
    ∃ model symbol, analyze source true = .ok model ∧ symbol.occurrences = [1, 6] ∧
      model.symbolAt ⟨1, 3⟩ = .ok (some symbol) ∧
      model.Answers ⟨1, 3⟩ "b" symbol ⟨⟨0, 4⟩, ⟨0, 5⟩⟩ [⟨⟨1, 3⟩, ⟨1, 4⟩⟩] ∧
      model.symbolAt ⟨1, 5⟩ = .ok none ∧ model.highlights ⟨1, 5⟩ = .ok [] := by
  intro source
  obtain ⟨model, analyzed, agree⟩ := cursor_answers_agree source true
  have here : (analyze source true).bind (·.symbolAt ⟨1, 3⟩) = .ok (some ⟨0, "a", [1], [6]⟩) := by
    decide +kernel
  have off : (analyze source true).bind (·.symbolAt ⟨1, 5⟩) = .ok none := by decide +kernel
  have ranges : (analyze source true).bind (·.references ⟨1, 3⟩ true) =
      .ok [⟨⟨0, 4⟩, ⟨0, 5⟩⟩, ⟨⟨1, 3⟩, ⟨1, 4⟩⟩] := by decide +kernel
  rw [analyzed] at here off ranges
  obtain ⟨found, answered, answers, _⟩ := agree ⟨1, 3⟩ "b"
  cases answered.symm.trans here
  obtain ⟨first, rest, answers⟩ := answers _ rfl
  cases answers.references.symm.trans ranges
  obtain ⟨missed, unanswered, _, silent⟩ := agree ⟨1, 5⟩ "b"
  cases unanswered.symm.trans off
  exact ⟨model, _, analyzed, rfl, here, answers, off, (silent rfl).1⟩

end LineScript
