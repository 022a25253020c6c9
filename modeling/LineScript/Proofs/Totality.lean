import LineScript.Proofs.Queries

namespace LineScript

namespace Node

theorem isKnown_of_mem_children {node part : Node} (known : node.isKnown)
    (member : part ∈ node.children) : part.isKnown := by
  cases node with
  | leaf token => cases member
  | unknown => cases member
  | error message range skipped =>
    obtain ⟨token, _, rfl⟩ := List.mem_map.mp member
    rfl
  | call callee opening argument closing =>
    cases argument <;> simp only [isKnown, children, Bool.and_eq_true] at known member <;>
      grind [isKnown]
  | block form keyword condition headerEnd body ending =>
    simp only [isKnown, Bool.and_eq_true, areKnown_iff] at known
    simp only [children] at member
    grind [isKnown]
  | program statements eof =>
    simp only [isKnown, areKnown_iff] at known
    simp only [children] at member
    grind [isKnown]
  | _ =>
    simp only [isKnown, children, Bool.and_eq_true] at known member
    grind [isKnown]

/-- Below a node of known form every node on the way down is of known form. -/
theorem isKnown_of_chain {node : Node} {rest : List Node} (known : node.isKnown)
    (steps : (node :: rest).IsChain fun outer inner => inner ∈ outer.children) :
    ∀ inner ∈ node :: rest, inner.isKnown := by
  induction rest generalizing node with
  | nil => simpa using known
  | cons next rest ih =>
    obtain ⟨child, steps⟩ := List.isChain_cons_cons.mp steps
    exact List.forall_mem_cons.mpr ⟨known, ih (isKnown_of_mem_children known child) steps⟩

end Node

theorem Hit.LeadsFrom.span_eq {hit : Hit} {root : Node} (leads : hit.LeadsFrom root)
    (known : root.isKnown) : ∃ span, hit.span = .ok span := by
  obtain ⟨rest, way⟩ := List.head?_eq_some_iff.mp leads.start
  have steps := leads.steps
  rw [way] at steps
  obtain ⟨node, last, _⟩ := leads.stop
  have inner : node.isKnown :=
    Node.isKnown_of_chain known steps node (way ▸ List.mem_of_getLast? last)
  exact ⟨node.span, by simp [Hit.span, last, Node.asking, inner]⟩

/-- Every position can be looked up in the tree of a text, and so can what is around it. -/
theorem locate_complete {source : String} {blockScoping : Bool} {model : Model}
    (analyzed : analyze source blockScoping = .ok model) (position : Position) :
    ∃ hit, model.locate position = .ok hit ∧
      ∀ found ∈ hit, found.LeadsFrom model.root ∧ ∃ span, found.span = .ok span := by
  cases (analyze_eq source blockScoping).symm.trans analyzed
  obtain ⟨statements, eof, tree, derived⟩ := parseTokens_statements source
  have known : (Node.program statements eof).isKnown := Node.areKnown_iff.mpr derived.known
  have located := Node.locate_program derived.known eof position
  simp only [tree, Model.locate]
  refine ⟨_, located, fun found descended => ?_⟩
  obtain ⟨_, _, way, path, leads⟩ := Node.descend_leads descended
  rw [List.nil_append] at path
  subst path
  exact ⟨leads, leads.span_eq known⟩

namespace Model

/-- Each question about a position is answered, and the answer lists as many places as the symbol there
has occurrences. -/
structure Serves (model : Model) (position : Position) (newName : String) (found : Option Symbol) :
    Prop where
  symbol : model.symbolAt position = .ok found
  highlights : (model.highlights position).map List.length =
    .ok (found.elim 0 (·.occurrences.length))
  edits : (model.renameEdits position newName).map (Option.map List.length) =
    .ok (found.map (·.occurrences.length))
  references : (model.references position true).map List.length =
    .ok (found.elim 0 (·.occurrences.length))
  uses : (model.references position false).map List.length =
    .ok (found.elim 0 (·.references.length))
  renamed : (model.renameRange position).map Option.isSome = .ok found.isSome

namespace Searchable

variable {model : Model} (searchable : model.Searchable)
include searchable

/-- The first of the ranges is that of the definition. -/
theorem length_of_answers {position : Position} {newName : String} {symbol : Symbol} {first : Range}
    {rest : List Range} (answers : model.Answers position newName symbol first rest)
    (named : model.symbolAt position = .ok (some symbol)) :
    symbol.occurrences.length = rest.length + 1 ∧ symbol.references.length = rest.length := by
  obtain ⟨found, again, rule⟩ := searchable.symbolAt_eq position
  cases again.symm.trans named
  obtain ⟨definition, defined⟩ := searchable.table.defined symbol ((rule symbol).mp rfl).1
  have count : symbol.occurrences.length = rest.length + 1 := answers.occurrences.length_eq
  refine ⟨count, ?_⟩
  rw [Symbol.occurrences, defined, List.singleton_append, List.length_cons] at count
  exact Nat.succ.inj count

theorem serves (position : Position) (newName : String) :
    ∃ found, model.Serves position newName found := by
  obtain ⟨found, named, _⟩ := searchable.symbolAt_eq position
  refine ⟨found, ?_⟩
  cases found with
  | none =>
    obtain ⟨highlights, references, edits, renamed⟩ := searchable.answers_none named newName
    exact ⟨named, by rw [highlights]; rfl, by rw [edits]; rfl, by rw [references]; rfl,
      by rw [references]; rfl, by rw [renamed]; rfl⟩
  | some symbol =>
    obtain ⟨first, rest, answers⟩ := searchable.answers named newName
    obtain ⟨count, uses⟩ := searchable.length_of_answers answers named
    obtain ⟨range, _, renamed, _⟩ := answers.renamed
    refine ⟨named, ?_, ?_, ?_, ?_, ?_⟩
    · simp [answers.highlights, Except.map, count]
    · simp [answers.edits, Except.map, count]
    · simp [answers.references, Except.map, count]
    · simp [answers.uses, Except.map, uses]
    · simp [renamed, Except.map]

/-- A declared symbol has the place of its definition, and those of its uses. -/
theorem exists_ranges {symbol : Symbol} (declared : symbol ∈ model.declared) :
    ∃ first uses, model.rangesOf symbol.definitions = .ok [first] ∧
      model.rangesOf symbol.references = .ok uses := by
  obtain ⟨name, uses, inside, definitions, references⟩ := searchable.exists_definition declared
  obtain ⟨here, later⟩ := List.forall_mem_cons.mp inside
  refine ⟨name.range, uses.map (·.range), ?_, ?_⟩
  · rw [definitions]
    exact rangesOf_eq searchable.numbered (List.forall_mem_singleton.mpr here)
  · rw [references]
    exact rangesOf_eq searchable.numbered later

end Searchable

end Model

/-- Every text can be analysed, and every question about the outcome is answered, whatever the position
and the new name are. -/
theorem analysis_never_faults (source : String) (blockScoping : Bool) :
    ∃ model, analyze source blockScoping = .ok model ∧
      (∀ position newName,
        (∃ hit, model.locate position = .ok hit ∧
          ∀ found ∈ hit, found.LeadsFrom model.root ∧ ∃ span, found.span = .ok span) ∧
        ∃ found, model.Serves position newName found) ∧
      ∀ symbol ∈ model.declared, ∃ first uses,
        model.rangesOf symbol.definitions = .ok [first] ∧
        model.rangesOf symbol.references = .ok uses := by
  have analyzed := analyze_eq source blockScoping
  have searchable := analyze_searchable analyzed
  refine ⟨_, analyzed, fun position newName => ⟨?_, ?_⟩, fun symbol declared => ?_⟩
  · exact locate_complete analyzed position
  · exact searchable.serves position newName
  · exact searchable.exists_ranges declared

/-- On a name in a broken text, and far off the text. -/
theorem analysis_never_faults_on_broken_text :
    ∃ model symbol, analyze "let x = (\nif x\nend )" false = .ok model ∧
      model.Serves ⟨1, 3⟩ "" (some symbol) ∧ symbol.occurrences = [1, 6] ∧
      model.Serves ⟨-7, 40⟩ "" none := by
  obtain ⟨model, analyzed, answered, _⟩ := analysis_never_faults "let x = (\nif x\nend )" false
  have here : (analyze "let x = (\nif x\nend )" false).bind (·.symbolAt ⟨1, 3⟩) =
      .ok (some ⟨0, "x", [1], [6]⟩) := by decide +kernel
  have off : (analyze "let x = (\nif x\nend )" false).bind (·.symbolAt ⟨-7, 40⟩) = .ok none := by
    decide +kernel
  rw [analyzed] at here off
  obtain ⟨_, found, serves⟩ := answered ⟨1, 3⟩ ""
  cases serves.symbol.symm.trans here
  obtain ⟨_, missed, silent⟩ := answered ⟨-7, 40⟩ ""
  cases silent.symbol.symm.trans off
  exact ⟨model, _, analyzed, serves, rfl, silent⟩

end LineScript
