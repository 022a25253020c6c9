import LineScript.Document.Cursor
import LineScript.Outcome
import LineScript.Proofs.Naming

namespace LineScript

theorem ledger_owner_text (blockScoping : Bool) (sight : Sight) (events : List NameEvent) :
    ∀ entry ∈ ledger blockScoping sight events, ∀ decl ∈ entry.owner,
      decl.token.text = entry.token.text := by
  induction events generalizing sight with
  | nil => simp [ledger]
  | cons event rest ih =>
    intro entry member decl owner
    rcases List.mem_append.mp member with here | later
    · cases event with
      | declare token =>
        cases Option.mem_toList.mp here
        cases owner
        rfl
      | refer token =>
        cases Option.mem_toList.mp here
        have same := List.find?_some owner
        exact of_decide_eq_true same
      | enter | leave | reject => cases here
    · exact ih _ entry later decl owner

theorem mem_usesOf {entries : List Entry} {symbol : Nat} {id : Int} :
    id ∈ usesOf symbol entries ↔ ∃ token decl,
      .referred token (some decl) ∈ entries ∧ decl.symbol = symbol ∧ token.id = id := by
  constructor
  · intro used
    obtain ⟨entry, member, found⟩ := List.mem_filterMap.mp used
    cases entry with
    | declared decl => cases found
    | referred token owner =>
      cases owner with
      | none => cases found
      | some decl =>
        by_cases own : decl.symbol = symbol
        · exact ⟨token, decl, member, own, by simpa [Entry.use?, own] using found⟩
        · simp [Entry.use?, own] at found
  · rintro ⟨token, decl, member, own, rfl⟩
    exact List.mem_filterMap.mpr ⟨_, member, by simp [Entry.use?, own]⟩

theorem usesOf_nodup {entries : List Entry} (nodup : (entries.map (·.token.id)).Nodup)
    (symbol : Nat) : (usesOf symbol entries).Nodup := by
  rw [usesOf, ← List.map_id (List.filterMap _ _)]
  apply nodup.sublist (filterMap_sublist _ entries)
  intro entry id used
  cases entry with
  | declared decl => cases used
  | referred token owner => exact (Option.ite_some_none_eq_some.mp used).2.symm

/-- The symbols of a table are those of its declarations. -/
theorem symbols_getElem?_iff {entries : List Entry} {number : Nat} {symbol : Symbol} :
    (draftOf entries).build.symbols[number]? = some symbol ↔
      ∃ token, (declarations entries)[number]? = some token ∧
        symbol = ⟨number, token.text, [token.id], (usesOf number entries).mergeSort (· ≤ ·)⟩ := by
  cases found : (declarations entries)[number]? with
  | none => simp [symbols_draftOf, found]
  | some token => simp [symbols_getElem? found, eq_comm]

/-- A ledger in which no two entries are about one token, and in which every symbol is known by the
place of its declaration. -/
structure Consistent (entries : List Entry) : Prop where
  nodup : (entries.map (·.token.id)).Nodup
  made : ∀ (symbol : Nat) token, (declarations entries)[symbol]? = some token →
    .declared ⟨token, symbol⟩ ∈ entries
  owner : ∀ entry ∈ entries, ∀ decl ∈ entry.owner,
    (declarations entries)[decl.symbol]? = some decl.token
  text : ∀ entry ∈ entries, ∀ decl ∈ entry.owner, decl.token.text = entry.token.text

namespace Consistent

variable {entries : List Entry} (consistent : Consistent entries)
include consistent

theorem eq_of_id {first second : Entry} (one : first ∈ entries) (two : second ∈ entries)
    (same : first.token.id = second.token.id) : first = second :=
  List.inj_on_of_nodup_map consistent.nodup one two same

variable {number : Nat} {symbol : Symbol}
  (found : (draftOf entries).build.symbols[number]? = some symbol)
include found

/-- A name occurs for a symbol if it stands for the symbol's declaration. -/
theorem mem_occurrences {entry : Entry} (member : entry ∈ entries) :
    entry.token.id ∈ symbol.occurrences ↔ entry.owner.any (·.symbol = number) := by
  obtain ⟨token, declared, rfl⟩ := symbols_getElem?_iff.mp found
  have made := consistent.made number token declared
  simp only [Symbol.occurrences, List.singleton_append, List.mem_cons, List.mem_mergeSort,
    mem_usesOf]
  constructor
  · rintro (same | ⟨other, decl, used, own, same⟩)
    · rw [consistent.eq_of_id member made same]
      simp [Entry.owner]
    · rw [← consistent.eq_of_id used member same]
      simp [Entry.owner, own]
  · intro owned
    cases entry with
    | declared decl =>
      obtain rfl : decl.symbol = number := by simpa [Entry.owner] using owned
      have same := consistent.owner _ member decl rfl
      rw [declared, Option.some_inj] at same
      exact .inl (congrArg Token.id same.symm)
    | referred other owner =>
      obtain ⟨decl, rfl, own⟩ : ∃ decl, owner = some decl ∧ decl.symbol = number := by
        simpa [Entry.owner, Option.any_eq_true] using owned
      exact .inr ⟨other, decl, member, own, rfl⟩

/-- Each occurrence of a symbol is a name with the symbol's text. -/
theorem exists_of_mem_occurrences {id : Int} (member : id ∈ symbol.occurrences) :
    ∃ entry ∈ entries, entry.token.id = id ∧ entry.token.text = symbol.name := by
  obtain ⟨token, declared, rfl⟩ := symbols_getElem?_iff.mp found
  simp only [Symbol.occurrences, List.singleton_append, List.mem_cons, List.mem_mergeSort,
    mem_usesOf] at member
  rcases member with rfl | ⟨other, decl, used, rfl, rfl⟩
  · exact ⟨_, consistent.made number token declared, rfl, rfl⟩
  · refine ⟨_, used, rfl, ?_⟩
    have same := consistent.owner _ used decl rfl
    rw [declared, Option.some_inj] at same
    rw [← consistent.text _ used decl rfl, same]

theorem occurrences_nodup : symbol.occurrences.Nodup := by
  obtain ⟨token, declared, rfl⟩ := symbols_getElem?_iff.mp found
  refine List.nodup_cons.mpr ⟨?_, ?_⟩
  · intro used
    obtain ⟨other, decl, used, own, same⟩ := mem_usesOf.mp (List.mem_mergeSort.mp used)
    cases consistent.eq_of_id used (consistent.made number token declared) same
  · exact (List.mergeSort_perm _ _).nodup_iff.mpr
      (usesOf_nodup consistent.nodup number)

end Consistent

/-- What becomes of the names of a text. -/
def entriesOf (source : String) (blockScoping : Bool) : List Entry :=
  ledger blockScoping .start (parseTokens (tokenize source)).1.events

theorem entriesOf_consistent (source : String) (blockScoping : Bool) :
    Consistent (entriesOf source blockScoping) where
  nodup := (ledger_of_text source blockScoping).1
  made := by
    obtain ⟨reached, known⟩ := Known.start.run blockScoping (parseTokens (tokenize source)).1.events
    exact known.made
  owner := ledger_owner .start blockScoping _
  text := ledger_owner_text blockScoping .start _

/-- Every text can be analysed. -/
theorem analyze_eq (source : String) (blockScoping : Bool) :
    analyze source blockScoping = .ok
      { lines := linesOf source
        tokens := tokenize source
        root := (parseTokens (tokenize source)).1
        shapeDiagnostics := (parseTokens (tokenize source)).2
        table := (draftOf (entriesOf source blockScoping)).build
        nameDiagnostics := warnings (entriesOf source blockScoping) } := by
  simp only [analyze, resolve_eq (parseTokens_playable source)]
  rfl

theorem Numbered.getElem? {tokens : List Token} (numbered : Numbered 0 tokens) {token : Token}
    (member : token ∈ tokens) : ∃ place : Nat, token.id = place ∧ tokens[place]? = some token := by
  obtain ⟨place, found⟩ := List.mem_iff_getElem?.mp member
  exact ⟨place, by simpa using numbered place token found, found⟩

/-- The occurrences of a symbol are the ids of names of its text. -/
theorem exists_names {source : String} {blockScoping : Bool} {number : Nat} {symbol : Symbol}
    (found : (draftOf (entriesOf source blockScoping)).build.symbols[number]? = some symbol) :
    ∃ names : List Token, names.map (·.id) = symbol.occurrences ∧
      ∀ token ∈ names, token ∈ linesTokens 0 0 (splitLines source.toList) ∧ token.kind = .name ∧
        token.text = symbol.name := by
  have named : ∀ id ∈ symbol.occurrences, ∃ entry ∈ entriesOf source blockScoping,
      entry.token.id = id ∧ entry.token.text = symbol.name :=
    fun _ => (entriesOf_consistent source blockScoping).exists_of_mem_occurrences found
  generalize symbol.occurrences = ids at named
  induction ids with
  | nil => exact ⟨[], rfl, by simp⟩
  | cons id rest ih =>
    obtain ⟨entry, member, same, text⟩ := named id List.mem_cons_self
    obtain ⟨names, ids, all⟩ := ih fun other later => named other (List.mem_cons_of_mem _ later)
    obtain ⟨inside, name, _⟩ := (ledger_of_text source blockScoping).2 entry member
    exact ⟨entry.token :: names, by rw [List.map_cons, ids, same],
      List.forall_mem_cons.mpr ⟨⟨inside, name, text⟩, all⟩⟩

theorem SymbolTable.mem_of_symbolOf {table : SymbolTable} {token : Int} {symbol : Symbol}
    (found : table.symbolOf token = .ok (some symbol)) :
    ∃ number : Nat, table.symbols[number]? = some symbol := by
  unfold symbolOf SymbolTable.symbol at found
  split at found
  · cases found
  · split at found
    · cases found
    · next member =>
      cases found
      obtain ⟨number, _, found⟩ := Option.bind_eq_some_iff.mp member
      exact ⟨number, found⟩

/-- The symbol at a position is one of the table. -/
theorem Model.mem_of_symbolAt {model : Model} {position : Position} {symbol : Symbol}
    (found : model.symbolAt position = .ok (some symbol)) :
    ∃ number : Nat, model.table.symbols[number]? = some symbol := by
  obtain ⟨hit, _, owned⟩ := exists_of_bind_eq_ok found
  cases hit with
  | none => cases owned
  | some token =>
    dsimp only [symbolOfToken] at owned
    split at owned
    · exact SymbolTable.mem_of_symbolOf owned
    · cases owned

namespace Model

variable {model : Model} (numbered : Numbered 0 model.tokens)
include numbered

theorem token_eq {token : Token} (member : token ∈ model.tokens) :
    model.token token.id = .ok token := by
  obtain ⟨place, id, found⟩ := numbered.getElem? member
  obtain ⟨bound, same⟩ := List.getElem?_eq_some_iff.mp found
  simp [Model.token, id, bound, same]

theorem rangesOf_eq {tokens : List Token} (members : ∀ token ∈ tokens, token ∈ model.tokens) :
    model.rangesOf (tokens.map (·.id)) = .ok (tokens.map (·.range)) := by
  induction tokens with
  | nil => rfl
  | cons token rest ih =>
    rw [List.forall_mem_cons] at members
    have later := ih members.2
    rw [rangesOf] at later ⊢
    rw [List.map_cons, List.mapM_cons, model.token_eq numbered members.1, later]
    rfl

end Model

end LineScript
