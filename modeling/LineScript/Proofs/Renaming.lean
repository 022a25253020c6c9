import LineScript.Proofs.Occurrences
import LineScript.Proofs.Relabelling

namespace LineScript

/-- A name that nothing defines. -/
def Entry.undefined? : Entry → Option Token
  | referred token none => some token
  | _ => none

theorem Entry.undefined?_eq_some {entry : Entry} {token : Token} :
    entry.undefined? = some token ↔ entry = .referred token none := by
  cases entry with
  | declared decl => simp [undefined?]
  | referred other owner => cases owner <;> simp [undefined?]

theorem warnings_eq (entries : List Entry) :
    warnings entries = (entries.filterMap Entry.undefined?).map fun token =>
      .warning (undefinedMessage token.text) token.range := by
  rw [warnings, List.map_filterMap]
  apply List.filterMap_congr
  intro entry _
  cases entry with
  | declared decl => rfl
  | referred token owner => cases owner <;> rfl

namespace Relabelling

variable (view : Relabelling)

def decl (decl : Decl) : Decl := ⟨view.token decl.token, decl.symbol⟩

def entry : Entry → Entry
  | .declared decl => .declared (view.decl decl)
  | .referred token owner => .referred (view.token token) (owner.map view.decl)

def sight (sight : Sight) : Sight :=
  ⟨sight.inner.map view.decl, sight.outer.map (List.map view.decl), sight.next⟩

theorem sight_all (sight : Sight) : (view.sight sight).all = sight.all.map view.decl := by
  simp [Relabelling.sight, Sight.all, List.map_flatten]

theorem sight_step (blockScoping : Bool) (sight : Sight) (event : NameEvent) :
    (view.sight sight).step blockScoping (view.event event) =
      view.sight (sight.step blockScoping event) := by
  obtain ⟨inner, outer, next⟩ := sight
  cases event with
  | leave =>
    cases outer with
    | nil => rfl
    | cons frame outer => cases blockScoping <;> simp [Relabelling.sight, Relabelling.event, Sight.step]
  | _ => rfl

/-- After the change every name still stands for what it stood for. -/
def Keeps (blockScoping : Bool) : Sight → List NameEvent → Prop
  | _, [] => True
  | sight, event :: rest =>
    (∀ token, event = .refer token →
      (view.sight sight).find? (view.token token).text = (sight.find? token.text).map view.decl) ∧
    Keeps blockScoping (sight.step blockScoping event) rest

theorem ledger {blockScoping : Bool} {sight : Sight} {events : List NameEvent}
    (keeps : view.Keeps blockScoping sight events) :
    LineScript.ledger blockScoping (view.sight sight) (events.map view.event) =
      (LineScript.ledger blockScoping sight events).map view.entry := by
  induction events generalizing sight with
  | nil => rfl
  | cons event rest ih =>
    have here : (view.sight sight).outcome? (view.event event) =
        (sight.outcome? event).map view.entry := by
      cases event with
      | refer token => simp [Relabelling.event, Sight.outcome?, entry, keeps.1 token rfl]
      | _ => rfl
    rw [List.map_cons, LineScript.ledger, LineScript.ledger, here, view.sight_step, ih keeps.2,
      List.map_append]
    cases sight.outcome? event <;> rfl

theorem keeps_of_text (same : ∀ token, (view.token token).text = token.text) (blockScoping : Bool)
    (sight : Sight) (events : List NameEvent) : view.Keeps blockScoping sight events := by
  induction events generalizing sight with
  | nil => trivial
  | cons event rest ih =>
    refine ⟨?_, ih _⟩
    rintro token rfl
    simp only [Sight.find?, view.sight_all, List.find?_map, Function.comp_def, Relabelling.decl, same]

/-- The change gives the names of one symbol a text that no name had before. -/
def Renames (symbol : Nat) (newName : String) (token : Token) (owner : Option Decl) : Prop :=
  (view.token token).text =
      (if owner.any (·.symbol = symbol) then newName else token.text) ∧ token.text ≠ newName

variable {view} {symbol : Nat} {newName : String}

/-- Names with different texts keep different texts, unless both become names of the symbol. -/
theorem Renames.text_ne {decl : Decl} {token : Token} {owner : Option Decl}
    (declared : view.Renames symbol newName decl.token (some decl))
    (used : view.Renames symbol newName token owner) (differ : decl.token.text ≠ token.text)
    (once : decl.symbol = symbol → ¬ owner.any (·.symbol = symbol)) :
    (view.token decl.token).text ≠ (view.token token).text := by
  rw [declared.1, used.1]
  by_cases own : decl.symbol = symbol
  · have other := once own
    simpa [own, other] using used.2.symm
  · by_cases also : owner.any (·.symbol = symbol)
    · simpa [own, also] using declared.2
    · simpa [own, also] using differ

/-- Taking the declarations of one symbol out of the way of a name changes nothing for the others,
and the new name finds just them. -/
theorem find?_decls {decls : List Decl} {token : Token}
    (unique : ∀ decl ∈ decls, ∀ other ∈ decls, decl.symbol = other.symbol → decl = other)
    (declared : ∀ decl ∈ decls, view.Renames symbol newName decl.token (some decl))
    (used : view.Renames symbol newName token (decls.find? (·.token.text = token.text))) :
    (decls.map view.decl).find? (·.token.text = (view.token token).text) =
      (decls.find? (·.token.text = token.text)).map view.decl := by
  rw [List.find?_map]
  congr 1
  cases found : decls.find? (·.token.text = token.text) with
  | none =>
    rw [found] at used
    rw [List.find?_eq_none] at found ⊢
    intro decl member
    have differ : decl.token.text ≠ token.text := by simpa using found decl member
    have apart := (declared decl member).text_ne used differ (by simp)
    exact fun same => apart (of_decide_eq_true same)
  | some first =>
    rw [found] at used
    rw [List.find?_eq_some_iff_append] at found ⊢
    obtain ⟨same, before, after, split, others⟩ := found
    have same : first.token.text = token.text := by simpa using same
    have inside : first ∈ decls := by simp [split]
    refine ⟨?_, before, after, split, ?_⟩
    · have text := (declared first inside).1
      rw [same, ← used.1] at text
      exact decide_eq_true text
    · intro decl member
      have present : decl ∈ decls := by simp [split, member]
      have differ : decl.token.text ≠ token.text := by simpa using others decl member
      have once : decl.symbol = symbol → ¬ (some first).any (·.symbol = symbol) := by
        -- Only `first` could be another declaration of the symbol, and it has the name's old text.
        intro own also
        have both : decl.symbol = first.symbol := own.trans (of_decide_eq_true also).symm
        rw [unique decl present first inside both] at differ
        exact differ same
      rw [Bool.not_eq_true']
      exact decide_eq_false ((declared decl present).text_ne used differ once)

theorem keeps_of_renames {blockScoping : Bool} {past : List Entry} {sight : Sight}
    {events : List NameEvent} (known : Known past sight)
    (declared : ∀ decl ∈ sight.all, view.Renames symbol newName decl.token (some decl))
    (entries : ∀ entry ∈ LineScript.ledger blockScoping sight events,
      view.Renames symbol newName entry.token entry.owner) :
    view.Keeps blockScoping sight events := by
  induction events generalizing past sight with
  | nil => trivial
  | cons event rest ih =>
    rw [LineScript.ledger, List.forall_mem_append] at entries
    refine ⟨?_, ih (known.step blockScoping event) ?_ entries.2⟩
    · rintro token rfl
      have used := entries.1 (.referred token (sight.find? token.text)) (by simp [Sight.outcome?])
      rw [Sight.find?, view.sight_all]
      refine find?_decls ?_ declared used
      intro decl member other also same
      have one := known.decls decl member
      have two := known.decls other also
      rw [same, two] at one
      obtain ⟨token, number⟩ := decl
      obtain ⟨token', number'⟩ := other
      simp_all
    · intro decl member
      rcases Sight.mem_step member with old | ⟨token, rfl, rfl⟩
      · exact declared decl old
      · exact entries.1 (.declared ⟨token, sight.next⟩) (by simp [Sight.outcome?])

section Table

variable (view)

theorem entry_token (entry : Entry) : (view.entry entry).token = view.token entry.token := by
  cases entry <;> rfl

theorem entry_owner (entry : Entry) : (view.entry entry).owner = entry.owner.map view.decl := by
  cases entry <;> rfl

theorem declarations (entries : List Entry) :
    LineScript.declarations (entries.map view.entry) =
      (LineScript.declarations entries).map view.token := by
  simp only [LineScript.declarations, List.filterMap_map, List.map_filterMap]
  apply List.filterMap_congr
  intro entry _
  cases entry <;> rfl

theorem usesOf (number : Nat) (entries : List Entry) :
    LineScript.usesOf number (entries.map view.entry) = LineScript.usesOf number entries := by
  simp only [LineScript.usesOf, List.filterMap_map]
  apply List.filterMap_congr
  intro entry _
  cases entry with
  | declared decl => rfl
  | referred token owner =>
    cases owner <;> simp [entry, Entry.use?, Relabelling.decl, view.id]

theorem owned (entries : List Entry) :
    (entries.map view.entry).filterMap Entry.owned? = entries.filterMap Entry.owned? := by
  rw [List.filterMap_map]
  apply List.filterMap_congr
  intro entry _
  simp only [Function.comp_apply, Entry.owned?, view.entry_token, view.entry_owner, view.id,
    Option.map_map]
  rfl

/-- The table of a changed ledger differs in the names only. -/
theorem draftOf (entries : List Entry) :
    LineScript.draftOf (entries.map view.entry) = { LineScript.draftOf entries with
      names := (LineScript.declarations entries).map fun token => (view.token token).text } := by
  simp only [LineScript.draftOf, view.declarations, view.usesOf, view.owned, TableDraft.mk.injEq,
    List.map_map, Function.comp_def, view.id, true_and, and_true]
  apply List.ext_getElem?
  intro number
  simp [Function.comp_def]

theorem draftOf_of_text (same : ∀ token, (view.token token).text = token.text)
    (entries : List Entry) :
    LineScript.draftOf (entries.map view.entry) = LineScript.draftOf entries := by
  rw [view.draftOf]
  simp only [same]
  rfl

variable {view}

/-- Renaming one symbol changes its name in the table and nothing else. -/
theorem build_of_renames {entries : List Entry} (consistent : Consistent entries)
    (renames : ∀ entry ∈ entries, view.Renames symbol newName entry.token entry.owner) :
    (LineScript.draftOf (entries.map view.entry)).build =
      ⟨(LineScript.draftOf entries).build.symbols.map fun made =>
          if made.id = (symbol : Int) then { made with name := newName } else made,
        (LineScript.draftOf entries).build.owners⟩ := by
  have owners := congrArg TableDraft.owners (view.draftOf entries)
  refine SymbolTable.ext ?_ owners
  apply List.ext_getElem?
  intro number
  rw [symbols_draftOf, symbols_draftOf, view.declarations]
  cases found : (LineScript.declarations entries)[number]? with
  | none => simp [found]
  | some token =>
    have text := (renames _ (consistent.made number token found)).1
    simp only [Entry.token, Entry.owner, Option.any_some, decide_eq_true_eq] at text
    simp only [List.getElem?_map, List.getElem?_mapIdx, found, Option.map_some, text, view.usesOf,
      view.id, Int.natCast_inj]
    split <;> rfl

end Table

theorem undefined (view : Relabelling) (entries : List Entry) :
    (entries.map view.entry).filterMap Entry.undefined? = (entries.filterMap Entry.undefined?).map view.token := by
  rw [List.filterMap_map, List.map_filterMap]
  apply List.filterMap_congr
  intro entry _
  cases entry with
  | declared decl => rfl
  | referred token owner => cases owner <;> rfl

/-- Reading a changed text. -/
theorem parseTokens_tokenize (view : Relabelling) (source : String) :
    LineScript.parseTokens ((tokenize source).map view.token) =
      (view.node (LineScript.parseTokens (tokenize source)).1,
        (LineScript.parseTokens (tokenize source)).2.map Diagnostic.flat) := by
  obtain ⟨eof, last, tokens⟩ := tokenize_eq source
  rw [tokens]
  exact view.parseTokens linesTokens_inner last

theorem entriesOf (view : Relabelling) {source : String} {blockScoping : Bool}
    (keeps : view.Keeps blockScoping .start (LineScript.parseTokens (tokenize source)).1.events) :
    LineScript.ledger blockScoping .start
        (LineScript.parseTokens ((tokenize source).map view.token)).1.events =
      (LineScript.entriesOf source blockScoping).map view.entry := by
  rw [view.parseTokens_tokenize, view.events]
  exact view.ledger keeps

section TwoTexts

variable (view other : Relabelling) {source after : String}
  (tokens : (tokenize after).map other.token = (tokenize source).map view.token)
include tokens

/-- Two texts whose tokens come out the same have the same problems of shape, columns apart. -/
theorem shape_eq : (LineScript.parseTokens (tokenize after)).2.map Diagnostic.flat =
    (LineScript.parseTokens (tokenize source)).2.map Diagnostic.flat := by
  have changed := other.parseTokens_tokenize after
  rw [tokens, view.parseTokens_tokenize] at changed
  exact (congrArg Prod.snd changed).symm

/-- Their names stand for the same, too. -/
theorem entries_eq {blockScoping : Bool}
    (keeps : view.Keeps blockScoping .start (LineScript.parseTokens (tokenize source)).1.events)
    (kept : other.Keeps blockScoping .start (LineScript.parseTokens (tokenize after)).1.events) :
    (LineScript.entriesOf after blockScoping).map other.entry =
      (LineScript.entriesOf source blockScoping).map view.entry := by
  rw [← other.entriesOf kept, ← view.entriesOf keeps, tokens]

end TwoTexts

end Relabelling

def Token.flat (token : Token) : Token := { token with range := token.range.flat }

/-- Columns are lost, and nothing else. -/
def flattening : Relabelling := ⟨Token.flat, fun _ => rfl, fun _ => rfl, fun _ => rfl, fun _ => rfl⟩

/-- Give the names with some ids a new text. -/
def Token.recast (ids : List Int) (newName : String) (token : Token) : Token :=
  if token.kind = .name ∧ token.id ∈ ids then { token with text := newName } else token

def recasting (ids : List Int) (newName : String) : Relabelling where
  token token := (token.recast ids newName).flat
  id token := by
    unfold Token.recast
    split <;> rfl
  kind token := by
    unfold Token.recast
    split <;> rfl
  equals token := by
    unfold Token.recast
    split
    · next name => simp [Parser.isEqualsSign, Token.flat, name.1]
    · rfl
  range token := by
    unfold Token.recast
    split <;> rfl

section Renamed

variable {source after newName : String} {blockScoping : Bool} {number : Nat} {symbol : Symbol}
  (found : (draftOf (entriesOf source blockScoping)).build.symbols[number]? = some symbol)
  (fresh : ∀ token ∈ tokenize source, token.kind = .name → token.text ≠ newName)
  (tokens : (tokenize after).map Token.flat =
    (tokenize source).map (recasting symbol.occurrences newName).token)

include found fresh

theorem recasting_renames : ∀ entry ∈ entriesOf source blockScoping,
    (recasting symbol.occurrences newName).Renames number newName entry.token entry.owner := by
  intro entry member
  obtain ⟨inside, name, _⟩ := (ledger_of_text source blockScoping).2 entry member
  refine ⟨?_, fresh _ (List.mem_append_left _ inside) name⟩
  have owner := (entriesOf_consistent source blockScoping).mem_occurrences found member
  simp only [recasting, Token.recast, name, true_and, owner]
  split <;> rfl

include tokens

/-- In the text with the new name, every name stands for what it stood for. -/
theorem entriesOf_renamed : (entriesOf after blockScoping).map flattening.entry =
    (entriesOf source blockScoping).map (recasting symbol.occurrences newName).entry := by
  have keeps : (recasting symbol.occurrences newName).Keeps blockScoping .start
      (parseTokens (tokenize source)).1.events :=
    Relabelling.keeps_of_renames .start (by simp [Sight.start, Sight.all])
      (recasting_renames found fresh)
  exact Relabelling.entries_eq _ flattening tokens keeps (flattening.keeps_of_text (fun _ => rfl) ..)

theorem build_renamed : (draftOf (entriesOf after blockScoping)).build =
    ⟨(draftOf (entriesOf source blockScoping)).build.symbols.map fun made =>
        if made.id = symbol.id then { made with name := newName } else made,
      (draftOf (entriesOf source blockScoping)).build.owners⟩ := by
  obtain ⟨_, _, rfl⟩ := symbols_getElem?_iff.mp found
  rw [← flattening.draftOf_of_text (fun _ => rfl), entriesOf_renamed found fresh tokens]
  exact Relabelling.build_of_renames (entriesOf_consistent source blockScoping)
    (recasting_renames found fresh)

/-- The names that nothing defines are the same ones, perhaps in other columns. -/
theorem undefined_renamed :
    ((entriesOf after blockScoping).filterMap Entry.undefined?).map Token.flat =
      ((entriesOf source blockScoping).filterMap Entry.undefined?).map Token.flat := by
  have same := congrArg (List.filterMap Entry.undefined?) (entriesOf_renamed found fresh tokens)
  rw [flattening.undefined, (recasting symbol.occurrences newName).undefined] at same
  refine same.trans (List.map_congr_left ?_)
  intro token member
  obtain ⟨entry, inside, undefined⟩ := List.mem_filterMap.mp member
  obtain rfl := Entry.undefined?_eq_some.mp undefined
  have owner := (entriesOf_consistent source blockScoping).mem_occurrences found inside
  have apart : token.id ∉ symbol.occurrences := fun occurs => by cases owner.mp occurs
  simp [recasting, Token.recast, apart]

omit found fresh in
theorem shape_renamed : (parseTokens (tokenize after)).2.map Diagnostic.flat =
    (parseTokens (tokenize source)).2.map Diagnostic.flat :=
  Relabelling.shape_eq (recasting symbol.occurrences newName) flattening tokens

end Renamed

end LineScript
