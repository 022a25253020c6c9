import LineScript.Proofs.Joining
import LineScript.Proofs.Lookahead
import LineScript.Proofs.Scoping
import LineScript.Proofs.TableOrder

namespace LineScript

open Grammar

theorem Node.eventsOf_append (first second : List Node) :
    eventsOf (first ++ second) = eventsOf first ++ eventsOf second := by
  induction first with
  | nil => rfl
  | cons node rest ih => simp only [List.cons_append, eventsOf, ih, List.append_assoc]

/-- What a block does with names, as far as it is read. -/
def OpenBlock.events (block : OpenBlock) : List NameEvent :=
  block.condition.events ++ .enter :: Node.eventsOf block.body

namespace Draft

/-- What is done with names in all that is read so far. Blocks that are open are entered and not
left. -/
def events (draft : Draft) : List NameEvent :=
  Node.eventsOf draft.done ++ draft.opened.reverse.flatMap OpenBlock.events

theorem events_add (draft : Draft) (node : Node) :
    (draft.add node).events = draft.events ++ node.events := by
  obtain ⟨opened, done⟩ := draft
  cases opened <;> simp [add, events, OpenBlock.events, Node.eventsOf_append, Node.eventsOf]

theorem events_enter (draft : Draft) (form : BlockForm) (keyword : Token)
    (condition headerEnd : Node) :
    (draft.enter ⟨form, keyword, condition, headerEnd, []⟩).events =
      draft.events ++ (condition.events ++ [.enter]) := by
  simp [enter, events, OpenBlock.events, Node.eventsOf]

theorem events_close {draft : Draft} {block : OpenBlock} {outer : List OpenBlock}
    (opened : draft.opened = block :: outer) (ending : Node) :
    (draft.close ending).events = draft.events ++ [.leave] := by
  obtain ⟨blocks, done⟩ := draft
  subst opened
  simp only [close, events_add]
  simp [events, OpenBlock.events, OpenBlock.close, Node.events]

end Draft

namespace Progress

/-- Progress in a longer text. -/
def extended (progress : Progress) (more : List Token) (eof : Token) : Progress :=
  ⟨progress.draft, progress.parser.extended more eof⟩

/-- The shorter text is read to its end, and in the longer one no more was done with names while only
tokens of its own are left. -/
structure Passed (more : List Token) (short long : Progress) : Prop where
  ended : short.parser.ahead = []
  behind : long.parser.ahead <:+ more
  events : long.draft.events = short.draft.events

variable {progress : Progress} {more : List Token} {eof : Token}

theorem enter_extended (ends : EndsLine progress.parser.ahead)
    (opens : progress.parser.current.kind.opensBlock) (form : BlockForm) :
    (progress.extended more eof).enter form = (progress.enter form).extended more eof ∨
      maxNesting ≤ progress.parser.depth + (progress.enter form).draft.opened.length ∧
        Passed more (progress.enter form) ((progress.extended more eof).enter form) := by
  have room : (progress.extended more eof).isFull = progress.isFull := rfl
  have inner : progress.parser.current.kind ≠ .endOfLine := by
    intro kind
    simp [kind, TokenKind.opensBlock] at opens
  simp only [enter, room]
  split
  · next full =>
    rcases Parser.skipBlock_extended more eof ends opens with same | ⟨ended, behind⟩
    · left
      simp only [add, extended, same, Taken.extended]
    · right
      refine ⟨?_, ended, behind, ?_⟩
      · simpa only [add, Draft.opened_add_length, isFull, decide_eq_true_eq] using full
      · simp only [add, Draft.events_add]
        rfl
  · left
    simp only [extended, Parser.header_extended ends more eof inner, Taken.extended]

/-- In a longer text a step is the same, unless it leaves out a block that is open up to the end of the
shorter one, as one that is nested too deeply. -/
theorem step_extended (ends : EndsLine progress.parser.ahead) :
    (progress.extended more eof).step = progress.step.extended more eof ∨
      maxNesting ≤ progress.parser.depth + progress.step.draft.opened.length ∧
        Passed more progress.step (progress.extended more eof).step := by
  have current : (progress.extended more eof).parser.current = progress.parser.current :=
    Parser.current_extended ends more eof
  have simple (inner : progress.parser.current.kind ≠ .endOfLine) :
      (progress.extended more eof).add Parser.simpleStatement =
        (progress.add Parser.simpleStatement).extended more eof := by
    simp only [add, extended, Parser.simpleStatement_extended ends more eof inner, Taken.extended]
  simp only [step, current]
  split
  · left
    simp only [extended, Parser.advance_extended ends, Taken.extended]
  · next kind => exact enter_extended ends (by simp [kind, TokenKind.opensBlock]) _
  · next kind => exact enter_extended ends (by simp [kind, TokenKind.opensBlock]) _
  · next kind =>
    left
    have inner : progress.parser.current.kind ≠ .endOfLine := by simp [kind]
    have opened : (progress.extended more eof).draft = progress.draft := rfl
    rw [opened]
    split
    · exact simple inner
    · simp only [extended, Parser.endMarker_extended ends more eof inner, Taken.extended]
  · next inner _ _ _ => exact .inl (simple inner)

theorem extended_sane (sane : progress.parser.Sane)
    (later : ∀ token ∈ more, token.kind ≠ .endOfFile) (last : eof.kind = .endOfFile) :
    (progress.extended more eof).parser.Sane where
  inner token member := (List.mem_append.mp member).elim (sane.inner token) (later token)
  last := last

/-- A text is read as in a longer one, up to where it ends. -/
theorem run_extended (sane : progress.parser.Sane)
    (closed : progress.parser.ahead = [] ∨ EndsLine progress.parser.ahead)
    (later : ∀ token ∈ more, token.kind ≠ .endOfFile) (last : eof.kind = .endOfFile) :
    ∃ reached, (progress.extended more eof).run false = reached.run false ∧
      reached.parser.Sane ∧ Passed more (progress.run false) reached := by
  fun_induction run false progress with
  | case1 progress ended =>
    refine ⟨_, rfl, extended_sane sane later last, ended, ?_, rfl⟩
    simp [extended, Parser.extended, ended]
  | case2 progress filled done => simp at done
  | case3 progress filled busy shorter ih =>
    have ends := closed.resolve_left filled
    have longer : (progress.extended more eof).parser.ahead ≠ [] :=
      List.append_ne_nil_of_left_ne_nil filled more
    obtain ⟨used, step⟩ := step_grows sane filled
    obtain ⟨_, reads, _⟩ := step.reads
    rw [run_step longer]
    rcases @step_extended progress more eof ends with same | ⟨_, passed⟩
    · rw [same]
      exact ih (step.sane sane) (ends.of_append reads.ahead)
    · -- The shorter text ends within the block that is left out, so its run is over here.
      obtain ⟨_, other⟩ := step_grows (extended_sane sane later last) longer
      refine ⟨_, rfl, other.sane (extended_sane sane later last), ?_⟩
      rw [run, dif_pos passed.ended]
      exact passed

variable {before after : Progress} {used : List Token} {errors : List Node}

/-- What a step does with names is about the tokens that it reads. -/
theorem Move.events (move : Move keptFailures before used errors after) :
    ∃ events, after.draft.events = before.draft.events ++ events ∧
      events.filterMap NameEvent.token? ⊆ used := by
  cases move with
  | stray => exact ⟨[], (List.append_nil _).symm, List.nil_subset _⟩
  | simple statement =>
    obtain ⟨events, inside, _⟩ := statement.events
    refine ⟨_, Draft.events_add _ _, ?_⟩
    rw [events, List.filterMap_append, refer_tokens, declare_tokens]
    exact inside.subset
  | tooDeep _ failed =>
    refine ⟨_, Draft.events_add _ _, ?_⟩
    rw [(keptFailures_silent failed).1]
    exact List.nil_subset _
  | enter _ _ test _ =>
    obtain ⟨events, inside⟩ := test.events
    refine ⟨_, Draft.events_enter _ _ _ _ _, ?_⟩
    rw [events, List.filterMap_append, refer_tokens]
    refine List.append_subset.mpr ⟨fun name member => ?_, List.nil_subset _⟩
    exact List.mem_cons_of_mem _ (List.mem_append_left _ (inside.subset member))
  | leave opened => exact ⟨_, Draft.events_close opened _, List.nil_subset _⟩

theorem run_events (progress : Progress) (sane : progress.parser.Sane) :
    ∃ events, (progress.run false).draft.events = progress.draft.events ++ events ∧
      events.filterMap NameEvent.token? ⊆ progress.parser.ahead := by
  fun_induction run false progress with
  | case1 progress ended => exact ⟨[], (List.append_nil _).symm, List.nil_subset _⟩
  | case2 progress filled done => simp at done
  | case3 progress filled busy shorter ih =>
    obtain ⟨used, errors, reads, move⟩ := step_moves sane filled
    obtain ⟨first, step, inside⟩ := move.events
    obtain ⟨second, rest, behind⟩ := ih (reads.sane sane)
    refine ⟨first ++ second, by rw [rest, step, List.append_assoc], ?_⟩
    rw [reads.ahead, List.filterMap_append]
    exact List.append_subset.mpr ⟨List.subset_append_of_subset_left _ inside,
      List.subset_append_of_subset_right _ behind⟩

theorem closeAll_events {opened : Nat} (progress : Progress)
    (length : progress.draft.opened.length = opened) :
    (closeAll opened progress).draft.events =
      progress.draft.events ++ List.replicate opened .leave := by
  induction opened generalizing progress with
  | zero => exact (List.append_nil _).symm
  | succ opened ih =>
    obtain ⟨block, outer, cons⟩ := List.exists_cons_of_length_eq_add_one length
    rw [closeAll, ih _ (opened_close_length length _), Draft.events_close cons,
      List.append_assoc, List.replicate_succ]
    rfl

theorem finish_events (progress : Progress) :
    (progress.finish false).draft.events = (progress.run false).draft.events ++
      List.replicate (progress.run false).draft.opened.length .leave :=
  closeAll_events _ rfl

/-- The longer text starts with what the shorter one does with names, and goes on with its own tokens. -/
theorem finish_extended (sane : progress.parser.Sane)
    (closed : progress.parser.ahead = [] ∨ EndsLine progress.parser.ahead)
    (later : ∀ token ∈ more, token.kind ≠ .endOfFile) (last : eof.kind = .endOfFile) :
    ∃ late, ((progress.extended more eof).finish false).draft.events =
        (progress.run false).draft.events ++ late ∧
      late.filterMap NameEvent.token? ⊆ more := by
  obtain ⟨reached, same, saneThere, passed⟩ := run_extended sane closed later last
  obtain ⟨events, rest, behind⟩ := run_events reached saneThere
  refine ⟨events ++ List.replicate (reached.run false).draft.opened.length .leave, ?_, ?_⟩
  · rw [finish_events, same, rest, passed.events, List.append_assoc]
  · rw [List.filterMap_append, List.filterMap_replicate_of_none rfl, List.append_nil]
    exact List.Subset.trans behind passed.behind.subset

end Progress

theorem Parser.program_events {parser : Parser} (sane : parser.Sane) :
    parser.program.item.events = (Progress.finish false ⟨.empty, parser⟩).draft.events := by
  obtain ⟨_, _, closed⟩ := Progress.finish_grows ⟨.empty, parser⟩ sane
  rw [Draft.events, closed]
  exact (List.append_nil _).symm

/-- What a program does with names, all but leaving the blocks that are open at its end, is also the
first thing that a longer program does. The rest is about the tokens that only the longer one has. -/
theorem parseTokens_events_extended {tokens more : List Token} {eof other : Token}
    (closed : tokens = [] ∨ EndsLine tokens) (inner : ∀ token ∈ tokens ++ more, token.kind ≠ .endOfFile)
    (last : eof.kind = .endOfFile) (final : other.kind = .endOfFile) :
    ∃ early late opened,
      (parseTokens (tokens ++ [eof])).1.events = early ++ List.replicate opened .leave ∧
      (parseTokens (tokens ++ more ++ [other])).1.events = early ++ late ∧
      late.filterMap NameEvent.token? ⊆ more := by
  have first (token : Token) (member : token ∈ tokens) := inner token (List.mem_append_left _ member)
  have later (token : Token) (member : token ∈ more) := inner token (List.mem_append_right _ member)
  have start : Parser.Sane ⟨[], tokens, eof, [], [], 0⟩ := ⟨first, last⟩
  have whole : Parser.Sane ⟨[], tokens ++ more, other, [], [], 0⟩ := ⟨inner, final⟩
  obtain ⟨late, continued, behind⟩ :=
    @Progress.finish_extended ⟨.empty, _⟩ more other start closed later final
  let reached := Progress.run false ⟨.empty, ⟨[], tokens, eof, [], [], 0⟩⟩
  refine ⟨reached.draft.events, late, reached.draft.opened.length, ?_, ?_, behind⟩
  · rw [parseTokens, Parser.ofTokens_append_eof first last, Parser.program_events start]
    exact Progress.finish_events _
  · rw [parseTokens, Parser.ofTokens_append_eof inner final, Parser.program_events whole]
    exact continued

theorem lineTokens_closed (id row : Nat) (line : List Char) :
    lineTokens id row line = [] ∨ EndsLine (lineTokens id row line) := by
  cases line with
  | nil => exact .inl rfl
  | cons c rest =>
    rw [lineTokens_of_ne_nil (List.cons_ne_nil c rest)]
    exact .inr (.prepend (.last rfl) _)

/-- The tokens of some lines end with the end of a line. -/
theorem linesTokens_closed (id row : Nat) (lines : List (List Char)) :
    linesTokens id row lines = [] ∨ EndsLine (linesTokens id row lines) := by
  induction lines generalizing id row with
  | nil => exact .inl rfl
  | cons line rest ih =>
    rw [linesTokens]
    rcases ih (id + (lineTokens id row line).length) (row + 1) with none | ends
    · rw [none, List.append_nil]
      exact lineTokens_closed id row line
    · exact .inr (ends.prepend _)

theorem linesTokens_append (id row : Nat) (first second : List (List Char)) :
    linesTokens id row (first ++ second) = linesTokens id row first ++
      linesTokens (id + (linesTokens id row first).length) (row + first.length) second := by
  induction first generalizing id row with
  | nil => rfl
  | cons line rest ih =>
    simp only [List.cons_append, linesTokens, ih, List.append_assoc, List.length_append,
      List.length_cons, Nat.add_assoc, Nat.add_comm 1]

theorem ledger_leave (blockScoping : Bool) (sight : Sight) (opened : Nat) :
    ledger blockScoping sight (List.replicate opened .leave) = [] := by
  induction opened generalizing sight with
  | zero => rfl
  | succ opened ih => exact ih _

section Texts

variable {first : String} (closed : first.toList.getLast? ≠ some '\r') (second : String)

/-- The tokens of a text behind another one. -/
def tokensBehind (first second : String) : List Token :=
  linesTokens (linesTokens 0 0 (splitLines first.toList)).length (splitLines first.toList).length
    (splitLines second.toList)

include closed

theorem splitLines_joined : splitLines (first ++ "\n" ++ second).toList =
    splitLines first.toList ++ splitLines second.toList := by
  have text : (first ++ "\n" ++ second).toList =
      first.toList ++ (LineEnding.feed.chars ++ second.toList) := by
    simp [LineEnding.chars]
  rw [text, splitLines_append_ending fun _ => closed]

theorem linesTokens_joined :
    linesTokens 0 0 (splitLines (first ++ "\n" ++ second).toList) =
      linesTokens 0 0 (splitLines first.toList) ++ tokensBehind first second := by
  rw [splitLines_joined closed, linesTokens_append, Nat.zero_add, Nat.zero_add]
  rfl

/-- What becomes of the names of a text, and then of those behind it. -/
theorem entriesOf_joined (blockScoping : Bool) : ∃ later,
    entriesOf (first ++ "\n" ++ second) blockScoping = entriesOf first blockScoping ++ later ∧
      ∀ entry ∈ later, entry.token ∈ tokensBehind first second := by
  obtain ⟨eof, last, tokens⟩ := tokenize_eq first
  obtain ⟨other, final, whole⟩ := tokenize_eq (first ++ "\n" ++ second)
  have inner := @linesTokens_inner 0 0 (splitLines (first ++ "\n" ++ second).toList)
  rw [linesTokens_joined closed] at whole inner
  obtain ⟨early, late, opened, short, long, behind⟩ :=
    parseTokens_events_extended (linesTokens_closed 0 0 _) inner last final
  refine ⟨ledger blockScoping (Sight.start.run blockScoping early) late, ?_, ?_⟩
  · rw [entriesOf, entriesOf, tokens, whole, short, long, ledger_append, ledger_append,
      ledger_leave, List.append_nil]
  · intro entry member
    have named := List.mem_map_of_mem (f := Entry.token) member
    rw [ledger_tokens] at named
    exact behind named

/-- The tokens of a text stand before those behind it. -/
theorem ids_apart : ∀ token ∈ linesTokens 0 0 (splitLines first.toList),
    ∀ other ∈ tokensBehind first second, token.id < other.id := by
  have numbered := linesTokens_numbered 0 0 (splitLines (first ++ "\n" ++ second).toList)
  rw [linesTokens_joined closed] at numbered
  exact (List.pairwise_append.mp numbered.increasing).2.2

end Texts

theorem mergeSort_append {low high : List Int} (nodup : (low ++ high).Nodup)
    (apart : ∀ one ∈ low, ∀ two ∈ high, one < two) :
    (low ++ high).mergeSort (· ≤ ·) = low.mergeSort (· ≤ ·) ++ high.mergeSort (· ≤ ·) := by
  have parts := List.nodup_append.mp nodup
  have increasing : (low.mergeSort (· ≤ ·) ++ high.mergeSort (· ≤ ·)).Pairwise (· < ·) := by
    refine List.pairwise_append.mpr
      ⟨mergeSort_increasing parts.1, mergeSort_increasing parts.2.1, ?_⟩
    intro one inLow two inHigh
    exact apart one (List.mem_mergeSort.mp inLow) two (List.mem_mergeSort.mp inHigh)
  have perm : ((low ++ high).mergeSort (· ≤ ·)).Perm
      (low.mergeSort (· ≤ ·) ++ high.mergeSort (· ≤ ·)) :=
    (List.mergeSort_perm _ _).trans
      ((List.mergeSort_perm _ _).append (List.mergeSort_perm _ _)).symm
  exact perm.eq_of_pairwise (fun one two _ _ below above => absurd above (Int.lt_asymm below))
    (mergeSort_increasing nodup) increasing

/-- In a longer text a symbol may have more references behind those that it had. -/
structure Symbol.KeptIn (symbol longer : Symbol) : Prop where
  id : longer.id = symbol.id
  name : longer.name = symbol.name
  definitions : longer.definitions = symbol.definitions
  references : symbol.references <+: longer.references

theorem OrderedMap.get?_append {κ ν : Type} [DecidableEq κ] (first second : List (κ × ν)) (key : κ) :
    get? ⟨first ++ second⟩ key = (get? ⟨first⟩ key).or (get? ⟨second⟩ key) := by
  simp only [get?, List.find?_append]
  cases first.find? (·.1 = key) <;> rfl

theorem get?_owners_draftOf {entries : List Entry} (nodup : (entries.map (·.token.id)).Nodup) (id : Int) :
    (draftOf entries).build.owners.get? id =
      OrderedMap.get? ⟨entries.filterMap Entry.owned?⟩ id := by
  have put := @OrderedMap.get?_putAll _ _ _ .empty _ (owned_nodup nodup) id
  rwa [show OrderedMap.empty.get? id = (none : Option Int) from rfl, Option.or_none] at put

section Ledgers

variable {entries later : List Entry} (nodup : ((entries ++ later).map (·.token.id)).Nodup)
include nodup

theorem uses_append (apart : ∀ entry ∈ entries, ∀ other ∈ later, entry.token.id < other.token.id)
    (number : Nat) :
    (usesOf number entries).mergeSort (· ≤ ·) <+:
      (usesOf number (entries ++ later)).mergeSort (· ≤ ·) := by
  have once := usesOf_nodup nodup number
  rw [usesOf_append] at once ⊢
  rw [mergeSort_append once]
  · exact List.prefix_append _ _
  · intro id before other behind
    obtain ⟨token, decl, member, _, rfl⟩ := mem_usesOf.mp before
    obtain ⟨second, owner, following, _, rfl⟩ := mem_usesOf.mp behind
    exact apart _ member _ following

theorem symbols_append (apart : ∀ entry ∈ entries, ∀ other ∈ later, entry.token.id < other.token.id) :
    ∃ kept added, (draftOf (entries ++ later)).build.symbols = kept ++ added ∧
      List.Forall₂ Symbol.KeptIn (draftOf entries).build.symbols kept := by
  rw [symbols_draftOf, symbols_draftOf, declarations_append, List.mapIdx_append]
  refine ⟨_, _, rfl, List.forall₂_iff_get.mpr ⟨by simp, ?_⟩⟩
  intro number inside _
  simp only [List.get_eq_getElem, List.getElem_mapIdx]
  exact ⟨rfl, rfl, rfl, uses_append nodup apart number⟩

/-- The owner of a token stays as it is if nothing more is said of the token. -/
theorem owners_append {id : Int} (absent : ∀ entry ∈ later, entry.token.id ≠ id) :
    (draftOf (entries ++ later)).build.owners.get? id = (draftOf entries).build.owners.get? id := by
  have part := (List.nodup_append.mp (List.map_append ▸ nodup)).1
  have silent : OrderedMap.get? ⟨later.filterMap Entry.owned?⟩ id = none := by
    refine OrderedMap.get?_eq_none fun key => ?_
    obtain ⟨owned, member, rfl⟩ := List.mem_map.mp key
    obtain ⟨entry, inside, made⟩ := List.mem_filterMap.mp member
    obtain ⟨decl, _, rfl⟩ := Option.map_eq_some_iff.mp made
    exact absent entry inside rfl
  rw [get?_owners_draftOf nodup, get?_owners_draftOf part, List.filterMap_append,
    OrderedMap.get?_append, silent, Option.or_none]

end Ledgers

/-- What is known of the names in a text is kept in a longer one: tokens stand for the same symbols,
symbols and reports only come in addition. -/
structure Model.KeptIn (model longer : Model) : Prop where
  tokens : model.tokens.dropLast <+: longer.tokens
  owners : ∀ token ∈ model.tokens, token.kind ≠ .endOfFile →
    longer.table.owners.get? token.id = model.table.owners.get? token.id
  symbols : ∃ kept added, longer.table.symbols = kept ++ added ∧
    List.Forall₂ Symbol.KeptIn model.table.symbols kept
  reports : model.nameDiagnostics <+: longer.nameDiagnostics

/-- Later text never changes the meaning of earlier text, whatever the earlier text leaves open. -/
theorem analyze_keeps_earlier_text (first second : String)
    (closed : first.toList.getLast? ≠ some '\r') (blockScoping : Bool) :
    ∃ model longer, analyze first blockScoping = .ok model ∧
      analyze (first ++ "\n" ++ second) blockScoping = .ok longer ∧ model.KeptIn longer := by
  obtain ⟨later, joined, behind⟩ := entriesOf_joined closed second blockScoping
  have nodup := (entriesOf_consistent (first ++ "\n" ++ second) blockScoping).nodup
  have names := (ledger_of_text first blockScoping).2
  have apart := ids_apart closed second
  rw [joined] at nodup
  refine ⟨_, _, analyze_eq first blockScoping, analyze_eq _ blockScoping, ?_, ?_, ?_, ?_⟩
  · obtain ⟨_, _, short⟩ := tokenize_eq first
    obtain ⟨_, _, long⟩ := tokenize_eq (first ++ "\n" ++ second)
    rw [short, long, List.dropLast_concat, linesTokens_joined closed, List.append_assoc]
    exact List.prefix_append _ _
  · intro token member inner
    simp only [joined]
    refine owners_append nodup fun entry following same => ?_
    have before := apart token (mem_linesTokens_of_mem member inner) _ (behind entry following)
    omega
  · simp only [joined]
    exact symbols_append nodup fun entry member other following =>
      apart _ (names entry member).1 _ (behind other following)
  · simp only [joined, warnings_append]
    exact List.prefix_append _ _

/-- The earlier text ends in a broken statement, in a block that is still open. -/
theorem analyze_keeps_earlier_text_in_open_block : ∃ model longer,
    analyze "let x = 1\nif x\nlet x = y (" true = .ok model ∧
      analyze ("let x = 1\nif x\nlet x = y (" ++ "\n" ++ "x\nend") true = .ok longer ∧
      model.KeptIn longer ∧ model.table.symbols.map (·.references) = [[6], []] ∧
      longer.table.symbols.map (·.references) = [[6], [14]] := by
  obtain ⟨model, longer, short, long, kept⟩ := analyze_keeps_earlier_text
    "let x = 1\nif x\nlet x = y (" "x\nend" (by decide) true
  have first : (analyze "let x = 1\nif x\nlet x = y (" true).map
      (·.table.symbols.map (·.references)) = .ok [[6], []] := by decide +kernel
  have second : (analyze ("let x = 1\nif x\nlet x = y (" ++ "\n" ++ "x\nend") true).map
      (·.table.symbols.map (·.references)) = .ok [[6], [14]] := by decide +kernel
  rw [short] at first
  rw [long] at second
  exact ⟨model, longer, short, long, kept, Except.ok.inj first, Except.ok.inj second⟩

end LineScript
