import LineScript.Names.Resolution
import Mathlib.Data.List.Forall2
import Mathlib.Data.List.Nodup

namespace LineScript

/-- A declaration: its name token, and the number of its symbol. -/
structure Decl where
  token : Token
  symbol : Nat

/-- The declarations in sight at a place in a program, block by block from the innermost outwards
and the latest first in each, and the number of the next symbol. -/
structure Sight where
  inner : List Decl
  outer : List (List Decl)
  next : Nat

/-- What becomes of a name: it is declared, or it is used for a declaration that is in sight. -/
inductive Entry where
  | declared (decl : Decl)
  | referred (token : Token) (owner : Option Decl)

namespace Sight

def start : Sight := ⟨[], [], 0⟩

def all (sight : Sight) : List Decl := sight.inner ++ sight.outer.flatten

def find? (sight : Sight) (name : String) : Option Decl :=
  sight.all.find? (·.token.text = name)

/-- What is in sight after an event. Without block scoping a block hands its declarations on. -/
def step (blockScoping : Bool) (sight : Sight) : NameEvent → Sight
  | .declare token => ⟨⟨token, sight.next⟩ :: sight.inner, sight.outer, sight.next + 1⟩
  | .enter => ⟨[], sight.inner :: sight.outer, sight.next⟩
  | .leave =>
    match sight.outer with
    | [] => sight
    | frame :: outer => ⟨if blockScoping then frame else sight.inner ++ frame, outer, sight.next⟩
  | .refer _ | .reject _ => sight

def outcome? (sight : Sight) : NameEvent → Option Entry
  | .declare token => some (.declared ⟨token, sight.next⟩)
  | .refer token => some (.referred token (sight.find? token.text))
  | .enter | .leave | .reject _ => none

end Sight

/-- What becomes of the names in a sequence of events. -/
def ledger (blockScoping : Bool) (sight : Sight) : List NameEvent → List Entry
  | [] => []
  | event :: rest => (sight.outcome? event).toList ++ ledger blockScoping (sight.step blockScoping event) rest

namespace Entry

def token : Entry → Token
  | declared decl => decl.token
  | referred token _ => token

/-- The declaration that a name stands for. -/
def owner : Entry → Option Decl
  | declared decl => some decl
  | referred _ owner => owner

def declared? : Entry → Option Token
  | declared decl => some decl.token
  | referred _ _ => none

/-- The id of a name that is used for a symbol. -/
def use? (symbol : Nat) : Entry → Option Int
  | declared _ => none
  | referred token owner => if owner.any (·.symbol = symbol) then some token.id else none

def owned? (entry : Entry) : Option (Int × Int) :=
  entry.owner.map fun decl => (entry.token.id, (decl.symbol : Int))

def warning? : Entry → Option Diagnostic
  | referred token none => some (.warning (undefinedMessage token.text) token.range)
  | _ => none

end Entry

def declarations (entries : List Entry) : List Token := entries.filterMap Entry.declared?

def usesOf (symbol : Nat) (entries : List Entry) : List Int := entries.filterMap (Entry.use? symbol)

def warnings (entries : List Entry) : List Diagnostic := entries.filterMap Entry.warning?

/-- The table that the entries of a ledger make. -/
def draftOf (entries : List Entry) : TableDraft where
  names := (declarations entries).map (·.text)
  definitions := (declarations entries).map ([·.id])
  references := (declarations entries).mapIdx fun symbol _ => usesOf symbol entries
  owners := OrderedMap.empty.putAll (entries.filterMap Entry.owned?)

theorem Sight.next_step (blockScoping : Bool) (sight : Sight) (event : NameEvent) :
    (sight.step blockScoping event).next =
      sight.next + (declarations (sight.outcome? event).toList).length := by
  cases event with
  | leave =>
    obtain ⟨inner, outer, next⟩ := sight
    cases outer <;> rfl
  | _ => rfl

/-- Only a declaration brings anything new into sight. -/
theorem Sight.mem_step {blockScoping : Bool} {sight : Sight} {event : NameEvent} {decl : Decl}
    (member : decl ∈ (sight.step blockScoping event).all) :
    decl ∈ sight.all ∨ ∃ token, event = .declare token ∧ decl = ⟨token, sight.next⟩ := by
  cases event with
  | declare token =>
    rcases List.mem_cons.mp member with new | old
    · exact .inr ⟨token, rfl, new⟩
    · exact .inl old
  | leave =>
    obtain ⟨inner, outer, next⟩ := sight
    cases outer with
    | nil => exact .inl member
    | cons frame outer =>
      cases blockScoping with
      | true => exact .inl (List.mem_append_right _ member)
      | false => exact .inl (by simpa [all, step] using member)
  | _ => exact .inl member

/-- A frame knows a name by the latest of some declarations. -/
structure FrameAgrees (frame : Frame) (decls : List Decl) : Prop where
  nodup : frame.keys.Nodup
  get? (name : String) :
    frame.get? name = (decls.find? (·.token.text = name)).map fun decl => (decl.symbol : Int)

namespace FrameAgrees

theorem empty : FrameAgrees .empty [] := ⟨.nil, fun _ => rfl⟩

theorem declare {frame : Frame} {decls : List Decl} (agrees : FrameAgrees frame decls)
    (token : Token) (symbol : Nat) :
    FrameAgrees (frame.put token.text symbol) (⟨token, symbol⟩ :: decls) where
  nodup := OrderedMap.keys_put_nodup agrees.nodup _ _
  get? name := by
    rw [OrderedMap.get?_put, agrees.get?]
    by_cases here : token.text = name <;> simp [here]

/-- Bindings that are handed on hide those that were there before. -/
theorem merge {inner frame : Frame} {decls others : List Decl} (first : FrameAgrees inner decls)
    (second : FrameAgrees frame others) :
    FrameAgrees (frame.putAll inner.entries) (decls ++ others) where
  nodup := OrderedMap.keys_putAll_nodup second.nodup _
  get? name := by
    rw [OrderedMap.get?_putAll first.nodup, first.get?, second.get?, List.find?_append]
    cases decls.find? (·.token.text = name) <;> simp

end FrameAgrees

/-- Innermost first, frame by frame, is latest first among all declarations in sight. -/
theorem findIn_eq {frames : List Frame} {decls : List (List Decl)}
    (agree : List.Forall₂ FrameAgrees frames decls) (name : String) :
    (Scope.findIn name frames).map (·.2) =
      (decls.flatten.find? (·.token.text = name)).map fun decl => (decl.symbol : Int) := by
  induction agree with
  | nil => rfl
  | @cons frame inner frames decls here _ ih =>
    have found := here.get? name
    rw [Scope.findIn, List.flatten_cons, List.find?_append]
    cases decl : inner.find? (·.token.text = name) with
    | none =>
      rw [decl] at found
      simpa [found] using ih
    | some decl' =>
      rw [decl] at found
      simp [found]

@[simp] theorem declarations_append (first second : List Entry) :
    declarations (first ++ second) = declarations first ++ declarations second :=
  List.filterMap_append

@[simp] theorem declarations_declared (decl : Decl) :
    declarations [.declared decl] = [decl.token] := rfl

@[simp] theorem declarations_referred (token : Token) (owner : Option Decl) :
    declarations [.referred token owner] = [] := rfl

@[simp] theorem usesOf_append (symbol : Nat) (first second : List Entry) :
    usesOf symbol (first ++ second) = usesOf symbol first ++ usesOf symbol second :=
  List.filterMap_append

@[simp] theorem usesOf_declared (symbol : Nat) (decl : Decl) :
    usesOf symbol [.declared decl] = [] := rfl

@[simp] theorem usesOf_undefined (symbol : Nat) (token : Token) :
    usesOf symbol [.referred token none] = [] := rfl

@[simp] theorem usesOf_referred (symbol : Nat) (token : Token) (decl : Decl) :
    usesOf symbol [.referred token (some decl)] =
      if decl.symbol = symbol then [token.id] else [] := by
  by_cases here : decl.symbol = symbol <;> simp [usesOf, Entry.use?, here]

@[simp] theorem warnings_append (first second : List Entry) :
    warnings (first ++ second) = warnings first ++ warnings second :=
  List.filterMap_append

theorem owners_draftOf_append (past : List Entry) (entry : Entry) :
    (draftOf (past ++ [entry])).owners = (draftOf past).owners.putAll entry.owned?.toList := by
  simp only [draftOf, List.filterMap_append, OrderedMap.putAll, List.foldl_append]
  cases owned : entry.owned? <;> simp [owned]

theorem draftOf_declared {past : List Entry} (decl : Decl)
    (unused : usesOf (declarations past).length past = []) :
    draftOf (past ++ [.declared decl]) =
      ⟨(draftOf past).names ++ [decl.token.text], (draftOf past).definitions ++ [[decl.token.id]],
        (draftOf past).references ++ [[]], (draftOf past).owners.put decl.token.id decl.symbol⟩ := by
  have owners := owners_draftOf_append past (.declared decl)
  have references : (draftOf (past ++ [.declared decl])).references = (draftOf past).references ++ [[]] := by
    simp [draftOf, unused]
  exact TableDraft.ext (by simp [draftOf]) (by simp [draftOf]) references owners

theorem draftOf_undefined (past : List Entry) (token : Token) :
    draftOf (past ++ [.referred token none]) = draftOf past := by
  have owners := owners_draftOf_append past (.referred token none)
  exact TableDraft.ext (by simp [draftOf]) (by simp [draftOf]) (by simp [draftOf]) owners

theorem draftOf_referred (past : List Entry) (token : Token) (decl : Decl) :
    draftOf (past ++ [.referred token (some decl)]) =
      ⟨(draftOf past).names, (draftOf past).definitions,
        (draftOf past).references.modify decl.symbol (· ++ [token.id]),
        (draftOf past).owners.put token.id decl.symbol⟩ := by
  have owners := owners_draftOf_append past (.referred token (some decl))
  have references : (draftOf (past ++ [.referred token (some decl)])).references =
      (draftOf past).references.modify decl.symbol (· ++ [token.id]) := by
    apply List.ext_getElem?
    intro symbol
    by_cases here : decl.symbol = symbol
    · simp [draftOf, here, Function.comp_def]
    · simp [draftOf, here]
  exact TableDraft.ext (by simp [draftOf]) (by simp [draftOf]) references owners

/-- All lists of a draft have a place for each declaration. -/
theorem length_draftOf (entries : List Entry) :
    (draftOf entries).names.length = (declarations entries).length ∧
      (draftOf entries).references.length = (declarations entries).length :=
  ⟨List.length_map _, List.length_mapIdx⟩

/-- The symbols of the table that a ledger makes. -/
theorem symbols_draftOf (entries : List Entry) :
    (draftOf entries).build.symbols = (declarations entries).mapIdx fun symbol token =>
      ⟨symbol, token.text, [token.id], (usesOf symbol entries).mergeSort (· ≤ ·)⟩ := by
  apply List.ext_getElem?
  intro symbol
  cases found : (declarations entries)[symbol]? with
  | none =>
    rw [List.getElem?_eq_none_iff] at found
    simp [draftOf, TableDraft.build, found]
  | some token => simp [draftOf, TableDraft.build, List.getElem?_zip_eq_some, found]

/-- A symbol's number is the place of its declaration among all declarations. -/
structure Known (past : List Entry) (sight : Sight) : Prop where
  count : (declarations past).length = sight.next
  decls : ∀ decl ∈ sight.all, (declarations past)[decl.symbol]? = some decl.token
  made : ∀ (symbol : Nat) token, (declarations past)[symbol]? = some token →
    .declared ⟨token, symbol⟩ ∈ past

theorem getElem?_declarations_append {past : List Entry} {symbol : Nat} {token : Token}
    (found : (declarations past)[symbol]? = some token) (more : List Entry) :
    (declarations (past ++ more))[symbol]? = some token := by
  obtain ⟨bound, _⟩ := List.getElem?_eq_some_iff.mp found
  rw [declarations_append, List.getElem?_append_left bound, found]

theorem Known.step {past : List Entry} {sight : Sight} (known : Known past sight)
    (blockScoping : Bool) (event : NameEvent) :
    Known (past ++ (sight.outcome? event).toList) (sight.step blockScoping event) := by
  obtain ⟨count, decls, made⟩ := known
  refine ⟨?_, ?_, ?_⟩
  · rw [declarations_append, List.length_append, count, Sight.next_step]
  · intro decl member
    rcases Sight.mem_step member with old | ⟨token, rfl, rfl⟩
    · exact getElem?_declarations_append (decls decl old) _
    · simp [Sight.outcome?, ← count]
  · intro symbol token found
    rw [declarations_append] at found
    by_cases old : symbol < (declarations past).length
    · rw [List.getElem?_append_left old] at found
      exact List.mem_append_left _ (made symbol token found)
    · rw [List.getElem?_append_right (by omega)] at found
      cases event with
      | declare other =>
        obtain ⟨rfl, place⟩ : other = token ∧ symbol - (declarations past).length = 0 := by
          simpa [Sight.outcome?, List.getElem?_singleton, and_comm] using found
        obtain rfl : symbol = sight.next := by omega
        exact List.mem_append_right _ (List.mem_singleton_self _)
      | _ => simp [Sight.outcome?, declarations, List.filterMap_cons, Entry.declared?] at found

theorem Known.start : Known [] .start := ⟨rfl, by simp [Sight.start, Sight.all], by simp [declarations]⟩

theorem Known.lt {past : List Entry} {sight : Sight} (known : Known past sight) {decl : Decl}
    (member : decl ∈ sight.all) : decl.symbol < sight.next := by
  obtain ⟨bound, _⟩ := List.getElem?_eq_some_iff.mp (known.decls decl member)
  rwa [known.count] at bound

theorem Known.owner {past : List Entry} {sight : Sight} (known : Known past sight)
    {event : NameEvent} {entry : Entry} (made : entry ∈ sight.outcome? event) {decl : Decl}
    (owner : decl ∈ entry.owner) :
    (declarations (past ++ (sight.outcome? event).toList))[decl.symbol]? = some decl.token := by
  cases event with
  | declare token =>
    cases made
    cases owner
    simp [Sight.outcome?, ← known.count]
  | refer token =>
    cases made
    exact getElem?_declarations_append (known.decls decl (List.mem_of_find?_eq_some owner)) _
  | enter => cases made
  | leave => cases made
  | reject => cases made

/-- Name resolution has the declarations in sight in its scope, and the entries made so far in its
table and its diagnostics. -/
structure Agrees (resolver : Resolver) (sight : Sight) (past : List Entry) : Prop where
  frames : List.Forall₂ FrameAgrees resolver.scope.frames (sight.inner :: sight.outer)
  table : resolver.table = draftOf past
  told : resolver.diagnostics = warnings past
  known : Known past sight
  unused : ∀ symbol, sight.next ≤ symbol → usesOf symbol past = []

/-- A token that can be a name. -/
def IsName (token : Token) : Prop := token.kind = .name ∧ token.text ≠ ""

/-- Only names are declared and used, and no more blocks are left than entered. -/
def Playable : Nat → List NameEvent → Prop
  | _, [] => True
  | depth, .declare token :: rest => IsName token ∧ Playable depth rest
  | depth, .refer token :: rest => IsName token ∧ Playable depth rest
  | depth, .enter :: rest => Playable (depth + 1) rest
  | 0, .leave :: _ => False
  | depth + 1, .leave :: rest => Playable depth rest
  | _, .reject _ :: _ => False

namespace Resolver

theorem declare_eq (resolver : Resolver) {token : Token} (name : IsName token) :
    resolver.declare token = .ok
      ⟨⟨resolver.scope.inner.put token.text resolver.table.names.length, resolver.scope.outer⟩,
        ⟨resolver.table.names ++ [token.text], resolver.table.definitions ++ [[token.id]],
          resolver.table.references ++ [[]], resolver.table.owners.put token.id resolver.table.names.length⟩,
        resolver.diagnostics⟩ := by
  have offer : (NameOffer.text token.text).name? = some token.text := by
    simp [NameOffer.name?, name.2]
  simp only [declare, TableDraft.declare_name _ name.1, Scope.define, offer]
  rfl

theorem refer_eq_of_none {resolver : Resolver} {token : Token}
    (absent : resolver.scope.lookup? token.text = none) :
    resolver.refer token = .ok ⟨resolver.scope, resolver.table,
      resolver.diagnostics ++ [.warning (undefinedMessage token.text) token.range]⟩ := by
  simp [refer, absent]

theorem refer_eq_of_some {resolver : Resolver} {token : Token} {symbol : Nat} (name : IsName token)
    (found : resolver.scope.lookup? token.text = some (symbol : Int))
    (bound : symbol < resolver.table.references.length) :
    resolver.refer token = .ok ⟨resolver.scope,
      ⟨resolver.table.names, resolver.table.definitions,
        resolver.table.references.modify symbol (· ++ [token.id]),
        resolver.table.owners.put token.id symbol⟩, resolver.diagnostics⟩ := by
  have known : slot? resolver.table.references.length symbol = some symbol := by
    rw [slot?_natCast, if_pos bound]
  simp only [refer, found, TableDraft.refer_known name.1 known]

end Resolver

namespace Agrees

variable {resolver : Resolver} {sight : Sight} {past : List Entry}

theorem lookup? (agrees : Agrees resolver sight past) (name : String) :
    resolver.scope.lookup? name = (sight.find? name).map fun decl => (decl.symbol : Int) :=
  findIn_eq agrees.frames name

theorem table_length (agrees : Agrees resolver sight past) :
    resolver.table.names.length = sight.next ∧ resolver.table.references.length = sight.next := by
  rw [agrees.table, ← agrees.known.count]
  exact length_draftOf past

theorem declare (agrees : Agrees resolver sight past) {token : Token} (name : IsName token)
    (blockScoping : Bool) :
    ∃ after, resolver.declare token = .ok after ∧ Agrees after
      (sight.step blockScoping (.declare token)) (past ++ [.declared ⟨token, sight.next⟩]) := by
  refine ⟨_, resolver.declare_eq name, ?_⟩
  rw [agrees.table_length.1]
  obtain ⟨frames, table, told, known, unused⟩ := agrees
  obtain ⟨here, outer⟩ := List.forall₂_cons.mp frames
  refine ⟨.cons (here.declare token sight.next) outer, ?_, ?_, ?_, ?_⟩
  · rw [table, draftOf_declared _ (unused _ (Nat.le_of_eq known.count.symm))]
  · simp [told, warnings, Entry.warning?]
  · exact known.step blockScoping (.declare token)
  · intro symbol fresh
    simpa using unused symbol (Nat.le_of_succ_le fresh)

theorem refer (agrees : Agrees resolver sight past) {token : Token} (name : IsName token) :
    ∃ after, resolver.refer token = .ok after ∧
      Agrees after sight (past ++ [.referred token (sight.find? token.text)]) := by
  have found := agrees.lookup? token.text
  have length := agrees.table_length.2
  obtain ⟨frames, table, told, known, unused⟩ := agrees
  have next : Known (past ++ [.referred token (sight.find? token.text)]) sight :=
    known.step true (.refer token)
  cases owner : sight.find? token.text with
  | none =>
    rw [owner] at found next
    refine ⟨_, Resolver.refer_eq_of_none found, frames, ?_, ?_, next, ?_⟩
    · rw [table, draftOf_undefined]
    · simp [told, warnings, Entry.warning?]
    · simpa using unused
  | some decl =>
    rw [owner] at found next
    have bound := known.lt (List.mem_of_find?_eq_some owner)
    refine ⟨_, Resolver.refer_eq_of_some name found (length ▸ bound), frames, ?_, ?_, next, ?_⟩
    · rw [table, draftOf_referred]
    · simp [told, warnings, Entry.warning?]
    · intro symbol fresh
      have other : decl.symbol ≠ symbol := by omega
      simpa [other] using unused symbol fresh

theorem enter (agrees : Agrees resolver sight past) (blockScoping : Bool) :
    Agrees { resolver with scope := resolver.scope.push } (sight.step blockScoping .enter) past where
  frames := .cons .empty agrees.frames
  table := agrees.table
  told := agrees.told
  known := by simpa [Sight.outcome?] using agrees.known.step blockScoping .enter
  unused := agrees.unused

theorem leave (agrees : Agrees resolver sight past) (inside : sight.outer ≠ [])
    (blockScoping : Bool) :
    ∃ after, resolver.leave blockScoping = .ok after ∧
      Agrees after (sight.step blockScoping .leave) past := by
  have next := agrees.known.step blockScoping .leave
  rw [Sight.outcome?, Option.toList_none, List.append_nil] at next
  obtain ⟨frames, table, told, _, unused⟩ := agrees
  obtain ⟨⟨inner, outer⟩, draft, diagnostics⟩ := resolver
  obtain ⟨first, others, number⟩ := sight
  obtain ⟨here, outside⟩ := List.forall₂_cons.mp frames
  cases outside with
  | nil => exact absurd rfl inside
  | cons around outside =>
    cases blockScoping with
    | true => exact ⟨_, rfl, .cons around outside, table, told, next, unused⟩
    | false => exact ⟨_, rfl, .cons (here.merge around) outside, table, told, next, unused⟩

end Agrees

/-- Name resolution and the ledger take each event together. -/
theorem Agrees.step {resolver : Resolver} {sight : Sight} {past : List Entry}
    (agrees : Agrees resolver sight past) {event : NameEvent} {rest : List NameEvent}
    (playable : Playable sight.outer.length (event :: rest)) (blockScoping : Bool) :
    Playable (sight.step blockScoping event).outer.length rest ∧
      ∃ after, resolver.step blockScoping event = .ok after ∧
        Agrees after (sight.step blockScoping event) (past ++ (sight.outcome? event).toList) := by
  cases event with
  | declare token => exact ⟨playable.2, agrees.declare playable.1 blockScoping⟩
  | refer token => exact ⟨playable.2, agrees.refer playable.1⟩
  | enter =>
    refine ⟨playable, _, rfl, ?_⟩
    rw [Sight.outcome?, Option.toList_none, List.append_nil]
    exact agrees.enter blockScoping
  | leave =>
    have inside : sight.outer ≠ [] := by
      intro empty
      simp [empty, Playable] at playable
    obtain ⟨frame, outer, cons⟩ := List.exists_cons_of_ne_nil inside
    rw [Sight.outcome?, Option.toList_none, List.append_nil]
    refine ⟨?_, agrees.leave inside blockScoping⟩
    rw [cons] at playable
    simpa [Sight.step, cons, Playable] using playable
  | reject label => exact playable.elim

/-- Name resolution computes the ledger. -/
theorem Agrees.run {resolver : Resolver} {sight : Sight} {past : List Entry}
    (agrees : Agrees resolver sight past) {events : List NameEvent}
    (playable : Playable sight.outer.length events) (blockScoping : Bool) :
    ∃ after reached, events.foldlM (Resolver.step blockScoping) resolver = .ok after ∧
      Agrees after reached (past ++ ledger blockScoping sight events) := by
  induction events generalizing resolver sight past with
  | nil => exact ⟨resolver, sight, rfl, by simpa [ledger] using agrees⟩
  | cons event rest ih =>
    obtain ⟨later, next, stepped, agrees⟩ := agrees.step playable blockScoping
    obtain ⟨after, reached, run, agrees⟩ := ih agrees later
    refine ⟨after, reached, ?_, ?_⟩
    · rw [List.foldlM_cons, stepped]
      exact run
    · rwa [List.append_assoc] at agrees

/-- The symbols and diagnostics of a tree can be read off its ledger. -/
theorem resolve_eq {root : Node} (playable : Playable 0 root.events) (blockScoping : Bool) :
    resolve root blockScoping = .ok
      ((draftOf (ledger blockScoping .start root.events)).build,
        warnings (ledger blockScoping .start root.events)) := by
  have start : Agrees .start .start [] :=
    ⟨.cons .empty .nil, rfl, rfl, .start, fun _ _ => rfl⟩
  obtain ⟨after, reached, run, agrees⟩ := start.run playable blockScoping
  rw [List.nil_append] at agrees
  simp only [resolve, run, ← agrees.table, ← agrees.told]
  rfl

theorem Known.run {past : List Entry} {sight : Sight} (known : Known past sight)
    (blockScoping : Bool) (events : List NameEvent) :
    ∃ reached, Known (past ++ ledger blockScoping sight events) reached := by
  induction events generalizing past sight with
  | nil => exact ⟨sight, by simpa [ledger] using known⟩
  | cons event rest ih =>
    rw [ledger, ← List.append_assoc]
    exact ih (known.step blockScoping event)

theorem ledger_owner {past : List Entry} {sight : Sight} (known : Known past sight)
    (blockScoping : Bool) (events : List NameEvent) :
    ∀ entry ∈ ledger blockScoping sight events, ∀ decl ∈ entry.owner,
      (declarations (past ++ ledger blockScoping sight events))[decl.symbol]? = some decl.token := by
  induction events generalizing past sight with
  | nil => simp [ledger]
  | cons event rest ih =>
    intro entry member decl owner
    rw [ledger, ← List.append_assoc]
    rcases List.mem_append.mp member with first | other
    · exact getElem?_declarations_append (known.owner (Option.mem_toList.mp first) owner) _
    · exact ih (known.step blockScoping event) entry other decl owner

theorem symbols_getElem? {entries : List Entry} {symbol : Nat} {token : Token}
    (found : (declarations entries)[symbol]? = some token) :
    (draftOf entries).build.symbols[symbol]? =
      some ⟨symbol, token.text, [token.id], (usesOf symbol entries).mergeSort (· ≤ ·)⟩ := by
  rw [symbols_draftOf, List.getElem?_mapIdx, found, Option.map_some]

/-- What is picked from entries for their tokens comes in the order of the tokens. -/
theorem filterMap_sublist {α : Type} {pick : Entry → Option α} {id : α → Int}
    (same : ∀ entry, ∀ item ∈ pick entry, id item = entry.token.id) (entries : List Entry) :
    ((entries.filterMap pick).map id).Sublist (entries.map (·.token.id)) := by
  induction entries with
  | nil => exact .slnil
  | cons entry rest ih =>
    cases picked : pick entry with
    | none => simpa [picked] using ih.cons _
    | some item => simpa [picked, same entry item picked] using ih

theorem owned_nodup {entries : List Entry} (nodup : (entries.map (·.token.id)).Nodup) :
    ((entries.filterMap Entry.owned?).map (·.1)).Nodup := by
  apply nodup.sublist (filterMap_sublist _ entries)
  intro entry pair owned
  obtain ⟨decl, _, rfl⟩ := Option.map_eq_some_iff.mp owned
  rfl

/-- Where no two entries are about one token, the table keeps the owner of each. -/
theorem owners_get? {entries : List Entry} (nodup : (entries.map (·.token.id)).Nodup) {entry : Entry}
    (member : entry ∈ entries) :
    (draftOf entries).build.owners.get? entry.token.id =
      entry.owner.map fun decl => (decl.symbol : Int) := by
  have owned : OrderedMap.get? ⟨entries.filterMap Entry.owned?⟩ entry.token.id =
      entry.owner.map fun decl => (decl.symbol : Int) := by
    cases owner : entry.owner with
    | some decl =>
      apply OrderedMap.get?_of_mem (owned_nodup nodup)
      exact List.mem_filterMap.mpr ⟨entry, member, by simp [Entry.owned?, owner]⟩
    | none =>
      apply OrderedMap.get?_eq_none
      intro inside
      obtain ⟨pair, made, same⟩ := List.mem_map.mp inside
      obtain ⟨other, present, owned⟩ := List.mem_filterMap.mp made
      obtain ⟨decl, found, rfl⟩ := Option.map_eq_some_iff.mp owned
      rw [List.inj_on_of_nodup_map nodup present member same, owner] at found
      cases found
  simp only [TableDraft.build, draftOf, OrderedMap.get?_putAll (owned_nodup nodup), owned]
  cases entry.owner <;> rfl

/-- The tokens that a table knows an owner of are those of names that stand for a declaration. -/
theorem mem_keys_draftOf {entries : List Entry} {id : Int} :
    id ∈ (draftOf entries).build.owners.keys ↔
      ∃ entry ∈ entries, entry.owner.isSome ∧ entry.token.id = id := by
  have keys : id ∈ (draftOf entries).build.owners.keys ↔
      id ∈ (entries.filterMap Entry.owned?).map (·.1) := by
    rw [TableDraft.build, draftOf, OrderedMap.mem_keys_putAll]
    simp [OrderedMap.keys, OrderedMap.empty]
  rw [keys]
  constructor
  · intro member
    obtain ⟨pair, owned, rfl⟩ := List.mem_map.mp member
    obtain ⟨entry, inside, made⟩ := List.mem_filterMap.mp owned
    obtain ⟨decl, owner, rfl⟩ := Option.map_eq_some_iff.mp made
    exact ⟨entry, inside, by simp [owner], rfl⟩
  · rintro ⟨entry, inside, owner, rfl⟩
    obtain ⟨decl, owner⟩ := Option.isSome_iff_exists.mp owner
    have made : entry.owned? = some (entry.token.id, (decl.symbol : Int)) := by
      simp [Entry.owned?, owner]
    exact List.mem_map.mpr ⟨_, List.mem_filterMap.mpr ⟨entry, inside, made⟩, rfl⟩

end LineScript
