import LineScript.Proofs.Accounting
import LineScript.Proofs.TableOrder
import Mathlib.Data.List.Infix
import Mathlib.Data.List.Sort

namespace LineScript

/-- The names that stand right behind a `let`. -/
def namesAfterLet : List Token → List Token
  | first :: second :: rest =>
    if first.kind = .letWord ∧ second.kind = .name then second :: namesAfterLet (second :: rest)
    else namesAfterLet (second :: rest)
  | _ => []

theorem pair_infix_cons {first second keyword name : Token} {rest : List Token} :
    [keyword, name] <:+: first :: second :: rest ↔
      (keyword = first ∧ name = second) ∨ [keyword, name] <:+: second :: rest := by
  rw [List.infix_cons_iff]
  simp only [List.cons_prefix_cons, List.nil_prefix, and_true]

theorem mem_namesAfterLet {tokens : List Token} {name : Token} :
    name ∈ namesAfterLet tokens ↔
      ∃ keyword, [keyword, name] <:+: tokens ∧ keyword.kind = .letWord ∧ name.kind = .name := by
  fun_induction namesAfterLet tokens with
  | case1 first second rest both ih =>
    simp only [List.mem_cons, ih, pair_infix_cons]
    constructor
    · rintro (rfl | ⟨keyword, inside, kinds⟩)
      · exact ⟨first, .inl ⟨rfl, rfl⟩, both⟩
      · exact ⟨keyword, .inr inside, kinds⟩
    · rintro ⟨keyword, ⟨rfl, rfl⟩ | inside, kinds⟩
      · exact .inl rfl
      · exact .inr ⟨keyword, inside, kinds⟩
  | case2 first second rest neither ih =>
    simp only [ih, pair_infix_cons]
    constructor
    · rintro ⟨keyword, inside, kinds⟩
      exact ⟨keyword, .inr inside, kinds⟩
    · rintro ⟨keyword, ⟨rfl, rfl⟩ | inside, kinds⟩
      · exact absurd kinds neither
      · exact ⟨keyword, inside, kinds⟩
  | case3 tokens short =>
    constructor
    · intro member
      cases member
    · rintro ⟨keyword, inside, _⟩
      have length := inside.length_le
      cases tokens with
      | nil => simp at length
      | cons first rest =>
        cases rest with
        | nil => simp at length
        | cons second rest => exact (short first second rest rfl).elim

/-- The names behind a `let` come in the order of the text. -/
theorem namesAfterLet_sublist (tokens : List Token) :
    (namesAfterLet tokens).Sublist tokens.tail := by
  fun_induction namesAfterLet tokens with
  | case1 first second rest both ih => exact ih.cons_cons _
  | case2 first second rest neither ih => exact ih.cons _
  | case3 tokens short => exact List.nil_sublist _

/-- What is declared is the name behind a `let`. -/
theorem Yields.declared {used : List Token} {events : List NameEvent} {problems : List Node}
    (yields : Yields used events problems) {name : Token} (declared : .declare name ∈ events) :
    ∃ keyword, [keyword, name] <:+: used ∧ keyword.kind = .letWord ∧ name.kind = .name := by
  induction yields with
  | nil => cases declared
  | append _ _ ihFirst ihSecond =>
    rcases List.mem_append.mp declared with first | second
    · obtain ⟨keyword, inside, kinds⟩ := ihFirst first
      exact ⟨keyword, List.infix_append_of_infix_left inside, kinds⟩
    · obtain ⟨keyword, inside, kinds⟩ := ihSecond second
      exact ⟨keyword, List.infix_append_of_infix_right inside, kinds⟩
  | perm _ same ih => exact ih (same.mem_iff.mpr declared)
  | silent about =>
    cases List.mem_singleton.mp declared
    cases about
  | other => cases declared
  | refer => cases List.mem_singleton.mp declared
  | declare word named =>
    cases List.mem_singleton.mp declared
    exact ⟨_, List.infix_rfl, word, named⟩
  | lost => cases declared

/-- A `let` declares the name right behind it, or it is lost in a problem. -/
theorem Yields.let_read {used : List Token} {events : List NameEvent} {problems : List Node}
    (yields : Yields used events problems) {keyword : Token} (word : keyword.kind = .letWord)
    (member : keyword ∈ used) :
    (∃ name, [keyword, name] <:+: used ∧ .declare name ∈ events) ∨
      ∃ problem ∈ problems, keyword ∈ problem.tokens := by
  induction yields with
  | nil => cases member
  | append _ _ ihFirst ihSecond =>
    rcases List.mem_append.mp member with first | second
    · rcases ihFirst first with ⟨name, inside, declared⟩ | ⟨problem, wrong, lost⟩
      · exact .inl ⟨name, List.infix_append_of_infix_left inside, List.mem_append_left _ declared⟩
      · exact .inr ⟨problem, List.mem_append_left _ wrong, lost⟩
    · rcases ihSecond second with ⟨name, inside, declared⟩ | ⟨problem, wrong, lost⟩
      · exact .inl ⟨name, List.infix_append_of_infix_right inside, List.mem_append_right _ declared⟩
      · exact .inr ⟨problem, List.mem_append_right _ wrong, lost⟩
  | perm _ same ih =>
    rcases ih member with ⟨name, inside, declared⟩ | lost
    · exact .inl ⟨name, inside, same.mem_iff.mp declared⟩
    · exact .inr lost
  | silent => cases member
  | other unnamed =>
    cases List.mem_singleton.mp member
    simp [word] at unnamed
  | refer named =>
    cases List.mem_singleton.mp member
    cases word.symm.trans named
  | @declare first name _ named =>
    rcases List.mem_pair.mp member with rfl | rfl
    · exact .inl ⟨name, List.infix_rfl, List.mem_singleton_self _⟩
    · cases word.symm.trans named
  | lost => exact .inr ⟨_, List.mem_singleton_self _, member⟩

/-- In a list without repetition only one token stands right behind another. -/
theorem head?_of_pair {all before rest : List Token} {first second : Token} (nodup : all.Nodup)
    (inside : [first, second] <:+: all) (split : all = before ++ first :: rest) :
    rest.head? = some second := by
  obtain ⟨front, back, rfl⟩ := inside
  rw [List.append_assoc] at nodup split
  have apart := (List.nodup_cons.mp (List.nodup_middle.mp nodup)).1
  rw [List.mem_append, not_or] at apart
  obtain ⟨_, _, rfl⟩ := (List.append_cons_inj_of_notMem apart.1 apart.2).mp split
  rfl

/-- A block that is cut off ends with its end, or with the end of the text. -/
theorem Parser.splitBlock_closes (opened : Nat) (tokens : List Token) :
    (splitBlock opened tokens).2 = [] ∨ ∃ early last,
      (splitBlock opened tokens).1 = early ++ [last] ∧ last.kind ∈ [.endWord, .endOfLine] := by
  have longer {token : Token} {split : List Token × List Token}
      (closes : split.2 = [] ∨ ∃ early last, split.1 = early ++ [last] ∧
        last.kind ∈ [.endWord, .endOfLine]) :
      split.2 = [] ∨ ∃ early last, token :: split.1 = early ++ [last] ∧
        last.kind ∈ [.endWord, .endOfLine] := by
    rcases closes with all | ⟨early, last, cut, kind⟩
    · exact .inl all
    · exact .inr ⟨token :: early, last, by rw [cut, List.cons_append], kind⟩
  fun_induction splitBlock opened tokens with
  | case1 => exact .inl rfl
  | case2 opened token rest opens split ih => exact longer ih
  | case3 token rest opens word line =>
    cases rest with
    | nil => simp at line
    | cons eol rest =>
      exact .inr ⟨[token], eol, rfl, by simpa using .inr (by simpa using line)⟩
  | case4 token rest opens word line => exact .inr ⟨[], token, rfl, by simp [word]⟩
  | case5 token rest opens word opened split ih => exact longer ih
  | case6 opened token rest opens word split ih => exact longer ih

/-- A block that is cut off does not end between a `let` and a name. -/
theorem mem_block_of_pair {all before ahead beyond : List Token} {keyword name first eof : Token}
    (nodup : all.Nodup) (behind : [keyword, name] <:+: all) (word : keyword.kind = .letWord)
    (named : name.kind = .name) (last : eof.kind = .endOfFile)
    (split : all = before ++ first :: (ahead ++ eof :: beyond))
    (inside : keyword ∈ (Parser.splitBlock 0 ahead).1) : name ∈ (Parser.splitBlock 0 ahead).1 := by
  have whole := Parser.splitBlock_append 0 ahead
  have closes := Parser.splitBlock_closes 0 ahead
  generalize Parser.splitBlock 0 ahead = pieces at *
  obtain ⟨block, rest⟩ := pieces
  obtain ⟨front, back, rfl⟩ := List.mem_iff_append.mp inside
  subst whole
  have place : all = (before ++ first :: front) ++ keyword :: (back ++ (rest ++ eof :: beyond)) := by
    simpa using split
  have head := head?_of_pair nodup behind place
  cases back with
  | cons other more =>
    cases head
    simp
  | nil =>
    -- The `let` would be the last token of the block.
    rcases closes with unclosed | ⟨early, closing, cut, kind⟩
    · dsimp only at unclosed
      subst unclosed
      cases head
      cases named.symm.trans last
    · obtain rfl : keyword = closing := by simpa using (List.append_inj' cut rfl).2
      simp [word] at kind

namespace Node

def isAbout (complaint : Complaint) : Node → Bool
  | error message _ _ => message = complaint.message
  | _ => false

/-- The tokens of blocks that are left out since they are nested too deeply. -/
def tooDeep (node : Node) : List Token :=
  (node.errors.filter (isAbout .nestedTooDeeply)).flatMap tokens

theorem tooDeep_subset (node : Node) : node.tooDeep ⊆ node.swallowed := by
  intro token deep
  obtain ⟨problem, wrong, held⟩ := List.mem_flatMap.mp deep
  exact List.mem_flatMap.mpr ⟨problem, List.mem_of_mem_filter wrong, held⟩

end Node

/-- If a `let` is lost and a name stands behind it, then both are lost in a block that is nested too
deeply. -/
theorem Lost.name_behind_let {all : List Token} (nodup : all.Nodup) {problem : Node}
    (lost : Lost all problem) {keyword name : Token} (word : keyword.kind = .letWord)
    (named : name.kind = .name) (member : keyword ∈ problem.tokens)
    (behind : [keyword, name] <:+: all) :
    problem.isAbout .nestedTooDeeply ∧ name ∈ problem.tokens := by
  have kept {passed skipped : List Token} {next : Token} (skips : Skips all passed skipped next) :
      keyword ∉ skipped := by
    intro inside
    have stops := skips.inner keyword inside
    simp [word, TokenKind.resumes] at stops
  cases lost with
  | missing _ skips => exact absurd member (kept skips)
  | @nameless first form skipped next opens unnamed skips =>
    rcases List.mem_cons.mp member with rfl | inside
    · obtain ⟨before, after, split⟩ := skips.place
      have head := head?_of_pair nodup behind split
      -- The name would be the first token that is skipped, or the one where reading resumes.
      cases skipped with
      | nil =>
        cases head
        have stop := skips.stop
        simp [named, TokenKind.resumes] at stop
      | cons other more =>
        cases head
        exact absurd named (unnamed name rfl)
    · exact absurd inside (kept skips)
  | unexpectedEnd kind skips =>
    rcases List.mem_cons.mp member with rfl | inside
    · cases word.symm.trans kind
    · exact absurd inside (kept skips)
  | unreadable kind skips =>
    rcases List.mem_cons.mp member with rfl | inside
    · simp [word, TokenKind.resumes] at kind
    · exact absurd inside (kept skips)
  | @tooDeep before first ahead eof beyond opens split inner last =>
    rcases List.mem_cons.mp member with rfl | inside
    · simp [word, TokenKind.opensBlock] at opens
    · refine ⟨by simp [Node.isAbout], List.mem_cons_of_mem _ ?_⟩
      exact mem_block_of_pair nodup behind word named last split inside

theorem NameEvent.declared?_eq_some {event : NameEvent} {name : Token} :
    event.declared? = some name ↔ event = .declare name := by
  cases event <;> simp [declared?]

section Text

variable {source : String} {blockScoping : Bool} {name : Token}

theorem mem_declarations_iff_event : name ∈ declarations (entriesOf source blockScoping) ↔
    .declare name ∈ (parseTokens (tokenize source)).1.events := by
  rw [entriesOf, declarations_ledger]
  simp only [List.mem_filterMap, NameEvent.declared?_eq_some, exists_eq_right]

theorem linesTokens_within (source : String) :
    linesTokens 0 0 (splitLines source.toList) <:+: tokenize source := by
  obtain ⟨eof, _, tokens⟩ := tokenize_eq source
  rw [tokens]
  exact List.infix_append_of_infix_left List.infix_rfl

/-- A name that is declared stands in the tree, so it is not too deep. -/
theorem not_tooDeep_of_declared (member : name ∈ declarations (entriesOf source blockScoping)) :
    name ∉ (parseTokens (tokenize source)).1.tooDeep := by
  obtain ⟨entry, present, made⟩ := List.mem_filterMap.mp member
  cases entry with
  | declared decl =>
    obtain rfl : decl.token = name := Option.some.inj made
    exact fun deep => (stands_of_mem present).2.2 (Node.tooDeep_subset _ deep)
  | referred token owner => cases made

/-- A name behind a `let` is declared unless it is too deep. -/
theorem declare_of_namesAfterLet (member : name ∈ namesAfterLet (tokenize source))
    (shallow : name ∉ (parseTokens (tokenize source)).1.tooDeep) :
    .declare name ∈ (parseTokens (tokenize source)).1.events := by
  obtain ⟨keyword, behind, word, named⟩ := mem_namesAfterLet.mp member
  have nodup := (tokenize_numbered source).ids_nodup.of_map
  have present : keyword ∈ linesTokens 0 0 (splitLines source.toList) :=
    mem_linesTokens_of_mem (behind.subset List.mem_cons_self) (by simp [word])
  rcases (parseTokens_yields source).let_read word present with
    ⟨other, inside, declared⟩ | ⟨problem, wrong, lost⟩
  · obtain ⟨front, back, split⟩ := behind
    rw [List.append_assoc] at split
    have head := head?_of_pair nodup (inside.trans (linesTokens_within source)) split.symm
    cases head
    exact declared
  · obtain ⟨about, held⟩ :=
      (parseTokens_lost source problem wrong).name_behind_let nodup word named lost behind
    exact absurd (List.mem_flatMap.mpr ⟨problem, List.mem_filter.mpr ⟨wrong, about⟩, held⟩) shallow

/-- What is declared is what stands behind a `let` and is not too deep. -/
theorem mem_declarations_iff : name ∈ declarations (entriesOf source blockScoping) ↔
    name ∈ namesAfterLet (tokenize source) ∧ name ∉ (parseTokens (tokenize source)).1.tooDeep := by
  constructor
  · intro member
    obtain ⟨keyword, inside, kinds⟩ :=
      (parseTokens_yields source).declared (mem_declarations_iff_event.mp member)
    have behind := inside.trans (linesTokens_within source)
    exact ⟨mem_namesAfterLet.mpr ⟨keyword, behind, kinds⟩, not_tooDeep_of_declared member⟩
  · rintro ⟨member, shallow⟩
    exact mem_declarations_iff_event.mpr (declare_of_namesAfterLet member shallow)

end Text

/-- The symbols of a text are defined by the names behind a `let`, whatever is wrong around them, but
for those in blocks that are nested too deeply. -/
theorem analyze_declares_names_after_let (source : String) (blockScoping : Bool) :
    ∃ model, analyze source blockScoping = .ok model ∧
      model.table.symbols.map (·.definitions) =
        ((namesAfterLet model.tokens).filter (· ∉ model.root.tooDeep)).map
          fun token => [token.id] := by
  refine ⟨_, analyze_eq source blockScoping, ?_⟩
  rw [definitions_draftOf]
  congr 1
  have irrefl : Std.Irrefl fun first second : Token => first.id < second.id :=
    ⟨fun _ => Int.lt_irrefl _⟩
  have antisymm : Std.Antisymm fun first second : Token => first.id < second.id :=
    ⟨fun _ _ before behind => absurd before (Int.lt_asymm behind)⟩
  have sublist : ((namesAfterLet (tokenize source)).filter
      (· ∉ (parseTokens (tokenize source)).1.tooDeep)).Sublist (tokenize source) :=
    List.filter_sublist.trans ((namesAfterLet_sublist _).trans (List.tail_sublist _))
  apply (entriesOf_inOrder source blockScoping).declared.eq_of_mem_iff
    ((tokenize_numbered source).increasing.sublist sublist)
  intro name
  rw [mem_declarations_iff, List.mem_filter, decide_eq_true_eq]

/-- Three declarations between a block without an end, a stray bracket and two `let`s without a name. -/
theorem analyze_declares_names_after_let_among_errors : ∃ model,
    analyze "let x if let y = ) let 3 let let z" true = .ok model ∧
      ((namesAfterLet model.tokens).filter (· ∉ model.root.tooDeep)).map (fun token => [token.id]) =
        [[1], [4], [11]] ∧
      model.shapeDiagnostics ≠ [] := by
  obtain ⟨model, analyzed, definitions⟩ :=
    analyze_declares_names_after_let "let x if let y = ) let 3 let let z" true
  have there : (analyze "let x if let y = ) let 3 let let z" true).map (fun model =>
      (model.table.symbols.map (·.definitions), model.shapeDiagnostics.isEmpty)) =
        .ok ([[1], [4], [11]], false) := by decide +kernel
  rw [analyzed] at there
  obtain ⟨symbols, wrong⟩ := Prod.mk.inj (Except.ok.inj there)
  exact ⟨model, analyzed, definitions.symm.trans symbols, by simpa using wrong⟩

end LineScript
