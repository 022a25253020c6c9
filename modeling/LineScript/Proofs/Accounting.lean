import LineScript.Proofs.Pieces
import LineScript.Proofs.Renaming

namespace LineScript

/-- Each name takes part in an event or is lost in a problem, as often as it stands among the tokens. -/
theorem Yields.count_names {used : List Token} {events : List NameEvent} {problems : List Node}
    (yields : Yields used events problems) {name : Token} (kind : name.kind = .name) :
    (events.filterMap NameEvent.token?).count name + (problems.flatMap Node.tokens).count name =
      used.count name := by
  induction yields with
  | nil => rfl
  | append _ _ ihFirst ihSecond =>
    simp only [List.filterMap_append, List.flatMap_append, List.count_append]
    omega
  | perm _ same ih => rwa [← (same.filterMap NameEvent.token?).count_eq]
  | silent about => simp [about]
  | @other token unnamed =>
    have apart : token ≠ name := by
      rintro rfl
      simp [kind] at unnamed
    simp [apart]
  | refer => simp [NameEvent.token?]
  | @declare keyword token word =>
    have apart : keyword ≠ name := by
      rintro rfl
      cases word.symm.trans kind
    simp [NameEvent.token?, List.count_cons, apart]
  | lost => simp [Node.tokens]

/-- The tokens that went into what is left of failed constructs. -/
def Node.swallowed (node : Node) : List Token := node.errors.flatMap tokens

/-- A name of a text is in its ledger, or it is swallowed. -/
theorem count_names {source : String} {token : Token} (name : token.kind = .name)
    (blockScoping : Bool) :
    ((entriesOf source blockScoping).map Entry.token).count token +
      (parseTokens (tokenize source)).1.swallowed.count token =
        (linesTokens 0 0 (splitLines source.toList)).count token := by
  rw [entriesOf, ledger_tokens]
  exact (parseTokens_yields source).count_names name

def undefinedNames (entries : List Entry) : List Token := entries.filterMap Entry.undefined?

theorem mem_undefinedNames {entries : List Entry} {token : Token} :
    token ∈ undefinedNames entries ↔ .referred token none ∈ entries := by
  simp only [undefinedNames, List.mem_filterMap, Entry.undefined?_eq_some, exists_eq_right]

theorem undefinedNames_nodup {entries : List Entry} (nodup : (entries.map (·.token.id)).Nodup) :
    (undefinedNames entries).Nodup := by
  apply List.Nodup.of_map Token.id
  apply nodup.sublist (filterMap_sublist _ entries)
  intro entry token made
  rw [Entry.undefined?_eq_some.mp made, Entry.token]

/-- What is reported at a name is that nothing defines it. -/
theorem warnings_filter_range {source : String} {token : Token}
    (member : token ∈ linesTokens 0 0 (splitLines source.toList)) (name : token.kind = .name)
    (blockScoping : Bool) :
    (warnings (entriesOf source blockScoping)).filter (·.range = token.range) =
      if token ∈ undefinedNames (entriesOf source blockScoping) then
        [.warning (undefinedMessage token.text) token.range] else [] := by
  have nodup := undefinedNames_nodup (entriesOf_consistent source blockScoping).nodup
  have names := (ledger_of_text source blockScoping).2
  have same : (undefinedNames (entriesOf source blockScoping)).filter (·.range = token.range) =
      (undefinedNames (entriesOf source blockScoping)).filter (· == token) := by
    apply List.filter_congr
    intro other inside
    obtain ⟨inText, isName⟩ := names _ (mem_undefinedNames.mp inside)
    rw [Bool.eq_iff_iff, decide_eq_true_eq, beq_iff_eq]
    exact ⟨fun range => eq_of_start_eq inText member isName.1 name (congrArg Range.start range),
      congrArg Token.range⟩
  have told : (warnings (entriesOf source blockScoping)).filter (·.range = token.range) =
      ((undefinedNames (entriesOf source blockScoping)).filter (·.range = token.range)).map
        fun token => .warning (undefinedMessage token.text) token.range := by
    rw [warnings_eq, List.filter_map]
    rfl
  rw [told, same, List.filter_beq, nodup.count]
  split <;> rfl

namespace Model

/-- What is reported about the names of a text at a range. -/
def reportsAt (model : Model) (range : Range) : List Diagnostic :=
  model.nameDiagnostics.filter (·.range = range)

/-- Each name is dealt with once: it stands for a symbol or is reported, unless it is swallowed. -/
structure NamesSettled (model : Model) : Prop where
  standing : ∀ token ∈ model.root.tokens, token.kind = .name → token ∉ model.root.swallowed →
    (token.id ∈ model.table.owners.keys ∧ model.reportsAt token.range = []) ∨
    (token.id ∉ model.table.owners.keys ∧
      model.reportsAt token.range = [.warning (undefinedMessage token.text) token.range])
  swallowed : ∀ token ∈ model.root.swallowed, token.kind = .name →
    token.id ∉ model.table.owners.keys ∧ model.reportsAt token.range = []
  owned : ∀ id ∈ model.table.owners.keys, ∃ token ∈ model.root.tokens,
    token.id = id ∧ token.kind = .name ∧ token ∉ model.root.swallowed
  reported : ∀ report ∈ model.nameDiagnostics, ∃ token ∈ model.root.tokens,
    token.kind = .name ∧ token ∉ model.root.swallowed ∧
      report = .warning (undefinedMessage token.text) token.range

end Model

/-- All names of a text are in its tree. -/
theorem mem_tree_iff {source : String} {token : Token} (name : token.kind = .name) :
    token ∈ (parseTokens (tokenize source)).1.tokens ↔
      token ∈ linesTokens 0 0 (splitLines source.toList) := by
  have covers := parseTokens_covers_text source
  constructor
  · intro member
    exact mem_linesTokens_of_mem (covers.sublist.subset member) (by simp [name])
  · intro member
    have kept : token ∈ (tokenize source).filter (·.kind ≠ .endOfLine) :=
      List.mem_filter.mpr ⟨mem_tokenize_of_mem member, by simp [name]⟩
    rw [← covers.others] at kept
    exact List.mem_of_mem_filter kept

/-- The names that stand in the tree of a text, outside what is swallowed, are those of its ledger. -/
theorem mem_entriesOf_iff {source : String} {token : Token} (name : token.kind = .name)
    (blockScoping : Bool) :
    (∃ entry ∈ entriesOf source blockScoping, entry.token = token) ↔
      token ∈ (parseTokens (tokenize source)).1.tokens ∧
        token ∉ (parseTokens (tokenize source)).1.swallowed := by
  have balance := @count_names source token name blockScoping
  have nodup := (linesTokens_numbered 0 0 (splitLines source.toList)).ids_nodup.of_map
  have once := List.nodup_iff_count_le_one.mp nodup token
  rw [mem_tree_iff name, ← List.mem_map]
  simp only [← List.count_pos_iff]
  omega

namespace Consistent

variable {entries : List Entry} (consistent : Consistent entries) {entry : Entry}
  (member : entry ∈ entries)
include consistent member

theorem mem_keys : entry.token.id ∈ (draftOf entries).build.owners.keys ↔ entry.owner.isSome := by
  rw [mem_keys_draftOf]
  constructor
  · rintro ⟨other, present, owned, same⟩
    rwa [← consistent.eq_of_id present member same]
  · intro owned
    exact ⟨entry, member, owned, rfl⟩

theorem mem_undefinedNames : entry.token ∈ undefinedNames entries ↔ entry.owner = none := by
  rw [LineScript.mem_undefinedNames]
  constructor
  · intro told
    rw [← consistent.eq_of_id told member rfl, Entry.owner]
  · intro unowned
    cases entry with
    | declared decl => cases unowned
    | referred token owner =>
      cases unowned
      exact member

end Consistent

section Text

variable {source : String} {blockScoping : Bool}

/-- A name of the ledger is owned or reported. -/
theorem owned_or_reported {entry : Entry} (inside : entry ∈ entriesOf source blockScoping) :
    (entry.token.id ∈ (draftOf (entriesOf source blockScoping)).build.owners.keys ∧
      (warnings (entriesOf source blockScoping)).filter (·.range = entry.token.range) = []) ∨
    (entry.token.id ∉ (draftOf (entriesOf source blockScoping)).build.owners.keys ∧
      (warnings (entriesOf source blockScoping)).filter (·.range = entry.token.range) =
        [.warning (undefinedMessage entry.token.text) entry.token.range]) := by
  have consistent := entriesOf_consistent source blockScoping
  obtain ⟨inText, name, _⟩ := (ledger_of_text source blockScoping).2 entry inside
  rw [consistent.mem_keys inside, warnings_filter_range inText name]
  have undefined := consistent.mem_undefinedNames inside
  cases owner : entry.owner with
  | some decl =>
    left
    simp [undefined, owner]
  | none =>
    right
    simp [undefined, owner]

/-- A name of a text that is not in the ledger is neither owned nor reported. -/
theorem silent_of_absent {token : Token} (name : token.kind = .name)
    (present : token ∈ linesTokens 0 0 (splitLines source.toList))
    (absent : ¬ ∃ entry ∈ entriesOf source blockScoping, entry.token = token) :
    token.id ∉ (draftOf (entriesOf source blockScoping)).build.owners.keys ∧
      (warnings (entriesOf source blockScoping)).filter (·.range = token.range) = [] := by
  constructor
  · intro owned
    obtain ⟨entry, inside, _, same⟩ := mem_keys_draftOf.mp owned
    have inText := ((ledger_of_text source blockScoping).2 entry inside).1
    have ids := (linesTokens_numbered 0 0 (splitLines source.toList)).ids_nodup
    exact absent ⟨entry, inside, List.inj_on_of_nodup_map ids inText present same⟩
  · rw [warnings_filter_range present name, if_neg]
    intro told
    exact absent ⟨_, mem_undefinedNames.mp told, rfl⟩

/-- The names of the ledger stand in the tree, and are not swallowed. -/
theorem stands_of_mem {entry : Entry} (inside : entry ∈ entriesOf source blockScoping) :
    entry.token ∈ (parseTokens (tokenize source)).1.tokens ∧ entry.token.kind = .name ∧
      entry.token ∉ (parseTokens (tokenize source)).1.swallowed := by
  have name := ((ledger_of_text source blockScoping).2 entry inside).2.1
  obtain ⟨member, stands⟩ := (mem_entriesOf_iff name blockScoping).mp ⟨entry, inside, rfl⟩
  exact ⟨member, name, stands⟩

end Text

/-- Each name of a text stands for exactly one symbol or is reported exactly once, but for those that
are lost to failed constructs. -/
theorem analyze_settles_names (source : String) (blockScoping : Bool) :
    ∃ model, analyze source blockScoping = .ok model ∧ model.NamesSettled := by
  refine ⟨_, analyze_eq source blockScoping, ?_, ?_, ?_, ?_⟩
  · intro token member name stands
    obtain ⟨entry, inside, rfl⟩ := (mem_entriesOf_iff name blockScoping).mpr ⟨member, stands⟩
    exact owned_or_reported inside
  · intro token lost name
    have present : token ∈ linesTokens 0 0 (splitLines source.toList) := by
      have balance := @count_names source token name blockScoping
      simp only [← List.count_pos_iff] at lost ⊢
      omega
    apply silent_of_absent name present
    intro found
    exact ((mem_entriesOf_iff name blockScoping).mp found).2 lost
  · intro id owned
    obtain ⟨entry, inside, _, rfl⟩ := mem_keys_draftOf.mp owned
    obtain ⟨member, name, stands⟩ := stands_of_mem inside
    exact ⟨entry.token, member, rfl, name, stands⟩
  · intro report told
    rw [warnings_eq] at told
    obtain ⟨token, undefined, rfl⟩ := List.mem_map.mp told
    obtain ⟨member, name, stands⟩ := stands_of_mem (mem_undefinedNames.mp undefined)
    exact ⟨token, member, name, stands, rfl⟩

/-- One name that is owned, one that is reported and one that is swallowed. -/
theorem analyze_settles_names_of_each_fate : ∃ model, analyze "let x = y\n) z" true = .ok model ∧
    model.NamesSettled ∧ model.table.owners.keys = [1] ∧
    model.nameDiagnostics.map (·.range) = [⟨⟨0, 8⟩, ⟨0, 9⟩⟩] ∧
    model.root.swallowed.map (·.id) = [5, 6] := by
  obtain ⟨model, analyzed, settled⟩ := analyze_settles_names "let x = y\n) z" true
  have there : (analyze "let x = y\n) z" true).map (fun model => (model.table.owners.keys,
      model.nameDiagnostics.map (·.range), model.root.swallowed.map (·.id))) =
        .ok ([1], [⟨⟨0, 8⟩, ⟨0, 9⟩⟩], [5, 6]) := by decide +kernel
  rw [analyzed] at there
  simp only [Except.map, Except.ok.injEq, Prod.mk.injEq] at there
  exact ⟨model, analyzed, settled, there⟩

end LineScript
