import LineScript.Proofs.Rewriting

namespace LineScript

/-- One range ends before the other starts. -/
def Range.Apart (first second : Range) : Prop :=
  first.stop ≤ second.start ∨ second.stop ≤ first.start

/-- The range is that of a piece of one of the lines, and the piece reads as the text. -/
def Range.Selects (range : Range) (lines : List String) (text : String) : Prop :=
  ∃ (row : Nat) (before after : String), lines[row]? = some (before ++ text ++ after) ∧
    range = .ofText ⟨row, before.length⟩ text

/-- The second model is that of the first text with a new name for one symbol: nothing else has
changed but the columns. -/
structure Renamed (symbol : Symbol) (newName : String) (model after : Model) : Prop where
  tokens : List.Forall₂ (fun token new => new.id = token.id ∧ new.kind = token.kind ∧
    new.gap = token.gap ∧ new.line = token.line ∧
    new.text = if token.id ∈ symbol.occurrences then newName else token.text) model.tokens after.tokens
  owners : after.table.owners = model.table.owners
  symbols : after.table.symbols = model.table.symbols.map fun other =>
    if other.id = symbol.id then { other with name := newName } else other
  shape : after.shapeDiagnostics.map (fun found => (found.message, found.range.start.line)) =
    model.shapeDiagnostics.map fun found => (found.message, found.range.start.line)
  messages : after.nameDiagnostics.map (·.message) = model.nameDiagnostics.map (·.message)
  subjects : ∃ ids, model.rangesOf ids = .ok (model.nameDiagnostics.map (·.range)) ∧
    after.rangesOf ids = .ok (after.nameDiagnostics.map (·.range))

/-- Every occurrence of a symbol is edited. -/
theorem Model.renameEdits_eq {model : Model} {position : Position} {symbol : Symbol}
    (found : model.symbolAt position = .ok (some symbol)) (numbered : Numbered 0 model.tokens)
    {names : List Token} (ids : names.map (·.id) = symbol.occurrences)
    (present : ∀ token ∈ names, token ∈ model.tokens) (newName : String) :
    model.renameEdits position newName = .ok (some (names.map (⟨·.range, newName⟩))) := by
  have ranges := rangesOf_eq numbered present
  rw [ids] at ranges
  simp [renameEdits, found, ranges, bind, Except.bind, pure, Except.pure]

theorem ranges_apart {lines : List (List Char)} {names : List Token} (nodup : names.Nodup)
    (inside : ∀ token ∈ names, token ∈ linesTokens 0 0 lines) :
    names.Pairwise fun first second => first.range.Apart second.range := by
  refine nodup.pairwise_of_forall_ne fun first one second two differ => ?_
  rcases linesTokens_apart (inside first one) (inside second two) with same | before | behind
  · exact absurd same differ
  · exact .inl before
  · exact .inr behind

theorem range_selects {source : String} {token : Token}
    (inside : token ∈ linesTokens 0 0 (splitLines source.toList)) :
    token.range.Selects (linesOf source) token.text := by
  obtain ⟨row, line, found, ⟨before, after, whole, range⟩, _⟩ := mem_linesTokens inside
  refine ⟨row, String.ofList before, String.ofList after, ?_, ?_⟩
  · rw [linesOf, List.getElem?_map, found, whole]
    simp [String.append_assoc]
  · simpa using range

/-- The names with some ids, in whatever order, are those that the ids pick out of a text. -/
theorem names_perm {tokens names : List Token} (numbered : Numbered 0 tokens)
    (nodup : (names.map (·.id)).Nodup)
    (all : ∀ token ∈ names, token ∈ tokens ∧ token.kind = .name) :
    names.Perm (tokens.filter fun token => token.kind = .name ∧ token.id ∈ names.map (·.id)) := by
  rw [List.perm_ext_iff_of_nodup nodup.of_map (numbered.ids_nodup.of_map.filter _)]
  intro token
  rw [List.mem_filter, decide_eq_true_eq]
  constructor
  · intro member
    obtain ⟨inside, name⟩ := all token member
    exact ⟨inside, name, List.mem_map_of_mem member⟩
  · rintro ⟨inside, _, chosen⟩
    obtain ⟨other, member, same⟩ := List.mem_map.mp chosen
    rwa [← List.inj_on_of_nodup_map numbered.ids_nodup (all other member).1 inside same]

theorem recast_fields {ids : List Int} {newName : String} {token new : Token}
    (same : new.flat = (recasting ids newName).token token)
    (name : token.id ∈ ids → token.kind = .name) :
    new.id = token.id ∧ new.kind = token.kind ∧ new.gap = token.gap ∧ new.line = token.line ∧
      new.text = if token.id ∈ ids then newName else token.text := by
  have fields : (token.recast ids newName) =
      { token with text := if token.id ∈ ids then newName else token.text } := by
    by_cases chosen : token.id ∈ ids <;> simp [Token.recast, chosen, name]
  simp only [recasting, fields, Token.flat, Token.mk.injEq] at same
  obtain ⟨id, kind, text, range, gap⟩ := same
  exact ⟨id, kind, gap, congrArg (·.start.line) range, text⟩

/-- The tokens of two texts that differ in a name and in columns only. -/
theorem forall₂_recast {tokens new : List Token} {ids : List Int} {newName : String}
    (same : new.map Token.flat = tokens.map (recasting ids newName).token)
    (names : ∀ token ∈ tokens, token.id ∈ ids → token.kind = .name) :
    List.Forall₂ (fun token new => new.id = token.id ∧ new.kind = token.kind ∧
      new.gap = token.gap ∧ new.line = token.line ∧
      new.text = if token.id ∈ ids then newName else token.text) tokens new := by
  induction tokens generalizing new with
  | nil =>
    rw [List.map_eq_nil_iff.mp same]
    exact .nil
  | cons token rest ih =>
    rw [List.forall_mem_cons] at names
    obtain ⟨first, others, rfl, here, later⟩ := List.map_eq_cons_iff.mp same
    exact .cons (recast_fields here names.1) (ih later names.2)

/-- The names that a text's diagnostics are about. -/
theorem rangesOf_undefined {source : String} {blockScoping : Bool} {model : Model}
    (analyzed : analyze source blockScoping = .ok model) :
    model.rangesOf (((entriesOf source blockScoping).filterMap Entry.undefined?).map (·.id)) =
      .ok (model.nameDiagnostics.map (·.range)) := by
  cases (analyze_eq source blockScoping).symm.trans analyzed
  rw [Model.rangesOf_eq (tokenize_numbered source)]
  · simp [warnings_eq, Diagnostic.warning]
  · intro token member
    obtain ⟨entry, inside, undefined⟩ := List.mem_filterMap.mp member
    obtain rfl := Entry.undefined?_eq_some.mp undefined
    exact List.mem_append_left _ ((ledger_of_text source blockScoping).2 _ inside).1

theorem name_of_mem_occurrences {source : String} {blockScoping : Bool} {number : Nat}
    {symbol : Symbol}
    (found : (draftOf (entriesOf source blockScoping)).build.symbols[number]? = some symbol) :
    ∀ token ∈ tokenize source, token.id ∈ symbol.occurrences → token.kind = .name := by
  intro token inside occurs
  obtain ⟨names, ids, all⟩ := exists_names found
  rw [← ids] at occurs
  obtain ⟨other, member, same⟩ := List.mem_map.mp occurs
  obtain ⟨present, name, _⟩ := all other member
  have numbered := tokenize_numbered source
  rwa [← List.inj_on_of_nodup_map numbered.ids_nodup (List.mem_append_left _ present) inside same]

/-- Analysing a text again after a symbol's names were recast. -/
theorem renamed_of_tokens {source after newName : String} {blockScoping : Bool} {model new : Model}
    (analyzed : analyze source blockScoping = .ok model)
    (again : analyze after blockScoping = .ok new) {number : Nat} {symbol : Symbol}
    (found : model.table.symbols[number]? = some symbol)
    (fresh : ∀ token ∈ model.tokens, token.kind = .name → token.text ≠ newName)
    (tokens : (tokenize after).map Token.flat =
      (tokenize source).map (recasting symbol.occurrences newName).token) :
    Renamed symbol newName model new := by
  have subjects := rangesOf_undefined analyzed
  have subjects' := rangesOf_undefined again
  cases (analyze_eq source blockScoping).symm.trans analyzed
  cases (analyze_eq after blockScoping).symm.trans again
  have owners := congrArg SymbolTable.owners (build_renamed found fresh tokens)
  have symbols := congrArg SymbolTable.symbols (build_renamed found fresh tokens)
  have undefined := undefined_renamed found fresh tokens
  have shape := congrArg (List.map fun found => (found.message, found.range.start.line))
    (shape_renamed tokens)
  have messages := congrArg (List.map fun token => undefinedMessage token.text) undefined
  have ids := congrArg (List.map Token.id) undefined
  rw [List.map_map, List.map_map] at shape messages ids
  refine ⟨forall₂_recast tokens (name_of_mem_occurrences found), owners, symbols, shape, ?_, _, subjects,
    ids ▸ subjects'⟩
  simpa [warnings_eq, Function.comp_def, Diagnostic.warning, Token.flat] using messages

/-- Renaming keeps the meaning of a text: a symbol can be given any valid name that the text does not
use yet, and nothing but its name changes. -/
theorem rename_keeps_meaning (source : String) (blockScoping : Bool) :
    ∃ model, analyze source blockScoping = .ok model ∧ ∀ position symbol newName,
      model.symbolAt position = .ok (some symbol) → isValidName newName →
      (∀ token ∈ model.tokens, token.kind = .name → token.text ≠ newName) →
      ∃ edits, model.renameEdits position newName = .ok (some edits) ∧
        edits.Pairwise (fun first second => first.range.Apart second.range) ∧
        (∀ edit ∈ edits, edit.range.Selects model.lines symbol.name) ∧
        ∃ after, analyze (applyEdits source edits) blockScoping = .ok after ∧
          Renamed symbol newName model after := by
  have analyzed := analyze_eq source blockScoping
  refine ⟨_, analyzed, ?_⟩
  intro position symbol newName found valid fresh
  obtain ⟨number, listed⟩ := Model.mem_of_symbolAt found
  have numbered := tokenize_numbered source
  have nodup := (entriesOf_consistent source blockScoping).occurrences_nodup listed
  obtain ⟨names, ids, all⟩ := exists_names listed
  have present : ∀ token ∈ names, token ∈ tokenize source :=
    fun token member => List.mem_append_left _ (all token member).1
  have apart := ranges_apart (List.Nodup.of_map _ (ids ▸ nodup)) fun token member => (all token member).1
  have perm := (names_perm numbered (ids ▸ nodup) fun token member =>
    ⟨present token member, (all token member).2.1⟩).map fun token => (⟨token.range, newName⟩ : TextEdit)
  rw [ids] at perm
  refine ⟨_, Model.renameEdits_eq found numbered ids present newName, ?_, ?_, _, analyze_eq _ _, ?_⟩
  · exact List.pairwise_map.mpr apart
  · intro edit member
    obtain ⟨token, named, rfl⟩ := List.mem_map.mp member
    obtain ⟨inside, _, text⟩ := all token named
    exact text ▸ range_selects inside
  · apply renamed_of_tokens analyzed (analyze_eq _ _) listed fresh
    rw [applyEdits_perm perm]
    · exact tokenize_applyEdits symbol.occurrences valid source
    · intro edit member
      obtain ⟨token, _, rfl⟩ := List.mem_map.mp member
      rfl

/-- The outer of two variables of one name is renamed, and the inner one keeps the name. -/
theorem rename_keeps_meaning_of_hidden_variable :
    let source := "let a = 1\r\nif b\nlet a = 2\na\nend\na"
    ∃ model symbol edits after, analyze source true = .ok model ∧
      model.symbolAt ⟨0, 4⟩ = .ok (some symbol) ∧ symbol.occurrences = [1, 17] ∧
      model.renameEdits ⟨0, 4⟩ "sum" = .ok (some edits) ∧
      applyEdits source edits = "let sum = 1\r\nif b\nlet a = 2\na\nend\nsum" ∧
      analyze (applyEdits source edits) true = .ok after ∧ Renamed symbol "sum" model after := by
  intro source
  obtain ⟨model, analyzed, renames⟩ := rename_keeps_meaning source true
  have symbol : (analyze source true).bind (·.symbolAt ⟨0, 4⟩) = .ok (some ⟨0, "a", [1], [17]⟩) := by
    decide +kernel
  have fresh : ∀ token ∈ tokenize source, token.kind = .name → token.text ≠ "sum" := by
    decide +kernel
  have ranges : (analyze source true).bind (·.renameEdits ⟨0, 4⟩ "sum") =
      .ok (some [⟨⟨⟨0, 4⟩, ⟨0, 5⟩⟩, "sum"⟩, ⟨⟨⟨5, 0⟩, ⟨5, 1⟩⟩, "sum"⟩]) := by
    decide +kernel
  have tokens : model.tokens = tokenize source := by
    cases (analyze_eq source true).symm.trans analyzed
    rfl
  rw [analyzed] at symbol ranges
  obtain ⟨edits, edited, _, _, after, again, renamed⟩ :=
    renames ⟨0, 4⟩ _ "sum" symbol (by decide +kernel) (tokens ▸ fresh)
  cases edited.symm.trans ranges
  exact ⟨model, _, _, after, analyzed, symbol, rfl, edited, by decide +kernel, again, renamed⟩

end LineScript
