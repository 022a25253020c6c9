import LineScript.Proofs.Joining
import LineScript.Proofs.Queries
import LineScript.Proofs.Rebuilding
import LineScript.Proofs.Rename

namespace LineScript

theorem endingsOf_append {text : List Char} (plain : ∀ c ∈ text, c ≠ '\n' ∧ c ≠ '\r')
    (rest : List Char) : endingsOf (text ++ rest) = endingsOf rest := by
  induction text with
  | nil => rfl
  | cons c more ih =>
    rw [List.forall_mem_cons] at plain
    obtain ⟨⟨feed, cr⟩, others⟩ := plain
    rw [List.cons_append, endingsOf.eq_4 c _ (fun _ same _ => cr same) feed, ih others]

/-- Edits inside lines leave the line endings as they are. -/
theorem endingsOf_rewriteFrom {edits : List TextEdit}
    (inline : ∀ edit ∈ edits, Inline edit.newText.toList) (position : Position) (text : List Char) :
    endingsOf (rewriteFrom edits position text) = endingsOf text := by
  have plain := inserted_plain inline
  fun_induction rewriteFrom edits position text with
  | case1 position =>
    have alone := endingsOf_append (plain position) []
    rwa [List.append_nil] at alone
  | case2 position rest ih => rw [endingsOf_append (plain position), endingsOf, endingsOf, ih]
  | case3 position rest ih => rw [endingsOf_append (plain position), endingsOf, endingsOf, ih]
  | case4 position c rest pair feed ih =>
    rw [endingsOf_append (plain position), endingsOf.eq_4 c rest pair feed, ← ih]
    cases here : covered edits position with
    | true => simp [kept, here]
    | false =>
      -- A carriage return that stays does not join a line feed.
      have lone : c = '\r' → (rewriteFrom edits position.next rest).head? ≠ some '\n' := by
        rintro rfl
        refine head?_rewriteFrom_next inline here fun head => ?_
        obtain ⟨more, rfl⟩ := List.head?_eq_some_iff.mp head
        exact pair more rfl rfl
      simp only [kept, here, Bool.false_eq_true, if_false, List.singleton_append]
      refine endingsOf.eq_4 c _ (fun more same split => ?_) feed
      exact lone same (by rw [split]; rfl)

/-- A text is known by its lines and its line endings. -/
theorem eq_of_lines_and_endings {first second : String}
    (lines : splitLines first.toList = splitLines second.toList)
    (endings : endingsOf first.toList = endingsOf second.toList) : first = second := by
  have one := (separated_splitLines first.toList).2
  rw [lines, endings, (separated_splitLines second.toList).2] at one
  exact (String.toList_injective one).symm

theorem onLine_flat (row : Int) (tokens : List Token) :
    onLine row (tokens.map Token.flat) = (onLine row tokens).map Token.flat :=
  List.filter_map

/-- What is written on a line does not depend on the columns of its tokens. -/
theorem writtenLines_flat (count : Nat) (tokens : List Token) :
    writtenLines count (tokens.map Token.flat) = writtenLines count tokens := by
  refine List.map_congr_left fun row _ => ?_
  rw [onLine_flat, written, written, List.flatMap_map]
  rfl

/-- Two texts of equally many lines and of the same tokens, columns apart, have the same lines. -/
theorem splitLines_eq_of_flat {first second : String}
    (count : (linesOf first).length = (linesOf second).length)
    (tokens : (tokenize first).map Token.flat = (tokenize second).map Token.flat) :
    splitLines first.toList = splitLines second.toList := by
  rw [← writtenLines_tokenize first, ← writtenLines_tokenize second, ← writtenLines_flat, tokens, count,
    writtenLines_flat]

theorem Token.flat_recast (ids : List Int) (name : String) (token : Token) :
    (token.recast ids name).flat = token.flat.recast ids name := by
  unfold Token.recast
  split <;> split <;> first | rfl | contradiction

/-- A token that gets a new text and then its old one is as before. -/
theorem Token.recast_recast {ids : List Int} {newName name : String} {token : Token}
    (own : token.kind = .name → token.id ∈ ids → token.text = name) :
    (token.recast ids newName).recast ids name = token := by
  by_cases chosen : token.kind = .name ∧ token.id ∈ ids
  · obtain rfl := own chosen.1 chosen.2
    have there : token.recast ids newName = { token with text := newName } := if_pos chosen
    rw [there]
    exact if_pos chosen
  · have there : token.recast ids newName = token := if_neg chosen
    rw [there]
    exact if_neg chosen

section Edit

variable (ids : List Int) {newName : String} (valid : isValidName newName)
include valid

theorem linesOf_applyEdits_length (source : String) :
    (linesOf (applyEdits source (editsOf ids newName (tokenize source)))).length =
      (linesOf source).length := by
  have lines := splitLines_rewriteFrom (inline_editsOf ids valid (tokenize source)) ⟨0, 0⟩ source.toList
  rw [linesOf, linesOf, List.length_map, List.length_map, applyEdits, String.toList_ofList, lines,
    rewriteLines_length]

theorem endingsOf_applyEdits (source : String) :
    endingsOf (applyEdits source (editsOf ids newName (tokenize source))).toList =
      endingsOf source.toList := by
  rw [applyEdits, String.toList_ofList]
  exact endingsOf_rewriteFrom (inline_editsOf ids valid (tokenize source)) ⟨0, 0⟩ source.toList

/-- Names that are edited twice, the second time back to their old text, leave the whole text as it
was. -/
theorem applyEdits_back {source name : String} (old : isValidName name)
    (own : ∀ token ∈ tokenize source, token.kind = .name → token.id ∈ ids → token.text = name) :
    let middle := applyEdits source (editsOf ids newName (tokenize source))
    applyEdits middle (editsOf ids name (tokenize middle)) = source := by
  intro middle
  have there : (tokenize middle).map Token.flat = (tokenize source).map (recasting ids newName).token :=
    tokenize_applyEdits ids valid source
  have back := tokenize_applyEdits ids old middle
  have tokens : (tokenize (applyEdits middle (editsOf ids name (tokenize middle)))).map Token.flat =
      (tokenize source).map Token.flat := by
    have flat : (recasting ids name).token = Token.recast ids name ∘ Token.flat :=
      funext (Token.flat_recast ids name)
    rw [back, flat, ← List.map_map, there, List.map_map]
    refine List.map_congr_left fun token member => ?_
    have same := @Token.recast_recast ids newName name token (own token member)
    simp only [Function.comp_apply, recasting, ← Token.flat_recast, same]
  apply eq_of_lines_and_endings
  · refine splitLines_eq_of_flat ?_ tokens
    rw [linesOf_applyEdits_length ids old, linesOf_applyEdits_length ids valid]
  · rw [endingsOf_applyEdits ids old, endingsOf_applyEdits ids valid]

end Edit

/-- What is read as a name is a valid name. -/
theorem isValidName_of_admitted {text next : List Char} (admitted : Admitted .name text next) :
    isValidName (String.ofList text) := by
  generalize name : TokenKind.name = kind at admitted
  cases admitted with
  | word start run _ =>
    simp only [isValidName, String.toList_ofList, ← name, start, List.all_eq_true.mpr run, decide_true,
      Bool.and_self]
  | _ => cases name

theorem isValidName_of_mem {source : String} {token : Token}
    (member : token ∈ linesTokens 0 0 (splitLines source.toList)) (kind : token.kind = .name) :
    isValidName token.text := by
  obtain ⟨_, _, _, _, eol | ⟨next, admitted⟩⟩ := mem_linesTokens member
  · rw [kind] at eol
    cases eol
  · rw [kind] at admitted
    simpa using isValidName_of_admitted admitted

section Symbol

variable {source : String} {blockScoping : Bool} {model : Model}
  (analyzed : analyze source blockScoping = .ok model)
include analyzed

/-- Renaming a symbol edits the names that have the ids of its occurrences. -/
theorem exists_renameEdits {position : Position} {symbol : Symbol}
    (found : model.symbolAt position = .ok (some symbol)) (newName : String) :
    ∃ edits, model.renameEdits position newName = .ok (some edits) ∧
      applyEdits source edits =
        applyEdits source (editsOf symbol.occurrences newName (tokenize source)) := by
  cases (analyze_eq source blockScoping).symm.trans analyzed
  obtain ⟨number, listed⟩ := Model.mem_of_symbolAt found
  have numbered := tokenize_numbered source
  have nodup := (entriesOf_consistent source blockScoping).occurrences_nodup listed
  obtain ⟨names, ids, all⟩ := exists_names listed
  have present : ∀ token ∈ names, token ∈ tokenize source :=
    fun token member => mem_tokenize_of_mem (all token member).1
  have perm := (names_perm numbered (ids ▸ nodup) fun token member =>
    ⟨present token member, (all token member).2.1⟩).map fun token => (⟨token.range, newName⟩ : TextEdit)
  rw [ids] at perm
  have texts : ∀ edit ∈ names.map fun token => (⟨token.range, newName⟩ : TextEdit),
      edit.newText = newName := by
    intro edit member
    obtain ⟨token, _, rfl⟩ := List.mem_map.mp member
    rfl
  exact ⟨_, Model.renameEdits_eq found numbered ids present newName, applyEdits_perm perm texts source⟩

/-- The name that a symbol is declared by leads to the symbol. -/
theorem symbolAt_definition {symbol : Symbol} (member : symbol ∈ model.table.symbols) :
    ∃ definition token, symbol.definitions[0]? = some definition ∧ model.token definition = .ok token ∧
      model.symbolAt token.range.start = .ok (some symbol) := by
  have searchable := analyze_searchable analyzed
  obtain ⟨name, uses, inside, definitions, references⟩ := searchable.exists_definition member
  have ids : (name :: uses).map (·.id) = symbol.occurrences := by
    rw [Symbol.occurrences, definitions, references, List.map_cons, List.singleton_append]
  have present := inside name List.mem_cons_self
  have kind : name.kind = .name := by
    apply searchable.kind_of_occurs member present
    rw [← ids]
    exact List.mem_cons_self
  have here : name.range.contains name.range.start := by
    cases (analyze_eq source blockScoping).symm.trans analyzed
    have inText := mem_linesTokens_of_mem present (by rw [kind]; decide)
    exact Range.contains_iff.mpr ⟨.inr rfl, (name_start_lt_stop inText kind).2⟩
  refine ⟨name.id, name, by rw [definitions]; rfl, Model.token_eq searchable.numbered present, ?_⟩
  exact searchable.symbolAt_of_occurrence ids inside member name.range List.mem_cons_self _ here

end Symbol

/-- The text of a symbol's occurrences is its name, and the name is valid. -/
theorem names_of_symbol {source : String} {blockScoping : Bool} {number : Nat} {symbol : Symbol}
    (found : (draftOf (entriesOf source blockScoping)).build.symbols[number]? = some symbol) :
    isValidName symbol.name ∧
      ∀ token ∈ tokenize source, token.id ∈ symbol.occurrences → token.text = symbol.name := by
  obtain ⟨names, ids, all⟩ := exists_names found
  constructor
  · have searchable := analyze_searchable (analyze_eq source blockScoping)
    obtain ⟨definition, defined⟩ := searchable.table.defined symbol (List.mem_of_getElem? found)
    rw [Symbol.occurrences, defined, List.singleton_append, List.map_eq_cons_iff] at ids
    obtain ⟨name, _, rfl, _⟩ := ids
    obtain ⟨inText, kind, text⟩ := all name List.mem_cons_self
    exact text ▸ isValidName_of_mem inText kind
  · intro token inside occurs
    rw [← ids] at occurs
    obtain ⟨name, member, same⟩ := List.mem_map.mp occurs
    obtain ⟨inText, _, text⟩ := all name member
    have nodup := (tokenize_numbered source).ids_nodup
    rwa [List.inj_on_of_nodup_map nodup (mem_tokenize_of_mem inText) inside same] at text

/-- Renaming a symbol to a name that the text does not use yet, and then back, gives the very text that
was there before, whatever else has the old name. -/
theorem rename_back_restores_text (source : String) (blockScoping : Bool) :
    ∃ model, analyze source blockScoping = .ok model ∧ ∀ position symbol newName,
      model.symbolAt position = .ok (some symbol) → isValidName newName →
      (∀ token ∈ model.tokens, token.kind = .name → token.text ≠ newName) →
      ∃ edits after definition token back,
        model.renameEdits position newName = .ok (some edits) ∧
        analyze (applyEdits source edits) blockScoping = .ok after ∧
        symbol.definitions[0]? = some definition ∧ after.token definition = .ok token ∧
        after.symbolAt token.range.start = .ok (some { symbol with name := newName }) ∧
        after.renameEdits token.range.start symbol.name = .ok (some back) ∧
        applyEdits (applyEdits source edits) back = source := by
  have analyzed := analyze_eq source blockScoping
  refine ⟨_, analyzed, ?_⟩
  intro position symbol newName found valid fresh
  obtain ⟨number, listed⟩ := Model.mem_of_symbolAt found
  obtain ⟨edits, renamed, applied⟩ := exists_renameEdits analyzed found newName
  have again := analyze_eq (applyEdits source edits) blockScoping
  have tokens := tokenize_applyEdits symbol.occurrences valid source
  rw [← applied] at tokens
  have table := build_renamed listed fresh tokens
  have member : { symbol with name := newName } ∈
      (draftOf (entriesOf (applyEdits source edits) blockScoping)).build.symbols := by
    rw [table]
    exact List.mem_map.mpr ⟨symbol, List.mem_of_getElem? listed, if_pos rfl⟩
  obtain ⟨definition, token, defined, placed, there⟩ := symbolAt_definition again member
  obtain ⟨back, edited, restored⟩ := exists_renameEdits again there symbol.name
  refine ⟨edits, _, definition, token, back, renamed, again, defined, placed, there, edited, ?_⟩
  obtain ⟨old, own⟩ := names_of_symbol listed
  rw [restored, applied]
  exact applyEdits_back symbol.occurrences valid old fun token inside _ => own token inside

/-- The old name stays with a variable in a block, and it stands undefined at the top. -/
theorem rename_back_restores_text_beside_old_name :
    let source := "a\r\nlet a = 1\nif b\r\nlet a = 2\nend\na"
    ∃ model edits after back, analyze source true = .ok model ∧
      model.renameEdits ⟨5, 0⟩ "sum" = .ok (some edits) ∧
      applyEdits source edits = "a\r\nlet sum = 1\nif b\r\nlet a = 2\nend\nsum" ∧
      analyze (applyEdits source edits) true = .ok after ∧
      after.renameEdits ⟨1, 4⟩ "a" = .ok (some back) ∧
      applyEdits (applyEdits source edits) back = source := by
  intro source
  obtain ⟨model, analyzed, renames⟩ := rename_back_restores_text source true
  have symbol : (analyze source true).bind (·.symbolAt ⟨5, 0⟩) = .ok (some ⟨0, "a", [3], [17]⟩) := by
    decide +kernel
  have fresh : ∀ token ∈ tokenize source, token.kind = .name → token.text ≠ "sum" := by
    decide +kernel
  have ranges : (analyze source true).bind (·.renameEdits ⟨5, 0⟩ "sum") =
      .ok (some [⟨⟨⟨1, 4⟩, ⟨1, 5⟩⟩, "sum"⟩, ⟨⟨⟨5, 0⟩, ⟨5, 1⟩⟩, "sum"⟩]) := by
    decide +kernel
  have tokens : model.tokens = tokenize source := by
    cases (analyze_eq source true).symm.trans analyzed
    rfl
  rw [analyzed] at symbol ranges
  obtain ⟨edits, after, definition, token, back, edited, again, defined, placed, _, returned, restored⟩ :=
    renames ⟨5, 0⟩ _ "sum" symbol (by decide +kernel) (tokens ▸ fresh)
  cases edited.symm.trans ranges
  cases defined
  have written : applyEdits source [⟨⟨⟨1, 4⟩, ⟨1, 5⟩⟩, "sum"⟩, ⟨⟨⟨5, 0⟩, ⟨5, 1⟩⟩, "sum"⟩] =
      "a\r\nlet sum = 1\nif b\r\nlet a = 2\nend\nsum" := by decide +kernel
  have start : (analyze "a\r\nlet sum = 1\nif b\r\nlet a = 2\nend\nsum" true).bind (·.token 3) =
      .ok ⟨3, .name, "sum", ⟨⟨1, 4⟩, ⟨1, 7⟩⟩, " "⟩ := by decide +kernel
  rw [← written, again] at start
  cases placed.symm.trans start
  exact ⟨model, _, after, back, analyzed, edited, written, again, returned, restored⟩

end LineScript
