import LineScript.Proofs.TableOrder
import Mathlib.Data.List.Sort

namespace LineScript

/-- A call on a table draft: declare a new symbol at a token, or let a token stand for a symbol. -/
inductive TableCall where
  | declare (token : Token)
  | refer (symbol : Nat) (token : Token)

/-- A table draft in use, with an entry for each call that succeeded so far. -/
structure TableUse where
  draft : TableDraft
  entries : List Entry

namespace TableCall

def token : TableCall → Token
  | declare token | refer _ token => token

/-- What a call does to a draft. It answers with its symbol. -/
def perform : TableCall → EStateM Fault TableDraft Int
  | declare token => TableDraft.declare token
  | refer symbol token => do
    TableDraft.refer symbol token
    return symbol

/-- The entry of a call that succeeds after others: a declaration makes the next symbol, and a reference
is to a symbol that was declared. -/
def entry (past : List Entry) : TableCall → Entry
  | declare token => .declared ⟨token, (declarations past).length⟩
  | refer symbol token => .referred token ((declarations past)[symbol]?.map (⟨·, symbol⟩))

end TableCall

namespace TableUse

def start : TableUse := ⟨.empty, []⟩

/-- The draft behind a call is taken over also if the call fails, but then there is no entry for it. -/
def step (use : TableUse) (call : TableCall) : TableUse :=
  match call.perform.run use.draft with
  | .error _ draft => ⟨draft, use.entries⟩
  | .ok _ draft => ⟨draft, use.entries ++ [call.entry use.entries]⟩

def run (calls : List TableCall) : TableUse := calls.foldl step .start

end TableUse

namespace TableCall

/-- What a call can do: make a symbol, add to one, or fail and leave the draft as it was. -/
inductive Effect (draft : TableDraft) : TableCall → EStateM.Result Fault TableDraft Int → Prop
  | declared {token : Token} : token.kind = .name → Effect draft (.declare token)
      (.ok draft.names.length ⟨draft.names ++ [token.text], draft.definitions ++ [[token.id]],
        draft.references ++ [[]], draft.owners.put token.id draft.names.length⟩)
  | referred {symbol : Nat} {token : Token} : token.kind = .name → symbol < draft.references.length →
      Effect draft (.refer symbol token) (.ok symbol ⟨draft.names, draft.definitions,
        draft.references.modify symbol (· ++ [token.id]), draft.owners.put token.id symbol⟩)
  | noName {call : TableCall} {fault : Fault} : call.token.kind ≠ .name →
      Effect draft call (.error fault draft)
  | noSymbol {symbol : Nat} {token : Token} {fault : Fault} : draft.references.length ≤ symbol →
      Effect draft (.refer symbol token) (.error fault draft)

theorem perform_effect (draft : TableDraft) (call : TableCall) :
    Effect draft call (call.perform.run draft) := by
  cases call with
  | declare token =>
    by_cases name : token.kind = .name
    · rw [perform, draft.declare_name name]
      exact .declared name
    · rw [perform, draft.declare_other name]
      exact .noName name
  | refer symbol token =>
    rw [perform, EStateM.run_bind]
    by_cases name : token.kind = .name
    · by_cases known : symbol < draft.references.length
      · have place : slot? draft.references.length symbol = some symbol := by
          rw [slot?_natCast, if_pos known]
        rw [TableDraft.refer_known name place]
        exact .referred name known
      · have nowhere : slot? draft.references.length symbol = none := by
          rw [slot?_natCast, if_neg known]
        rw [TableDraft.refer_unknown name nowhere]
        exact .noSymbol (Nat.le_of_not_lt known)
    · rw [draft.refer_other name]
      exact .noName name

theorem perform_error {draft next : TableDraft} {call : TableCall} {fault : Fault}
    (failed : call.perform.run draft = .error fault next) : next = draft := by
  have effect := perform_effect draft call
  rw [failed] at effect
  cases effect <;> rfl

end TableCall

/-- The symbol that the last entry about a token gives to it. -/
def lastOwner (entries : List Entry) (id : Int) : Option Int :=
  (entries.reverse.find? (·.token.id = id)).bind fun entry => entry.owner.map fun decl => (decl.symbol : Int)

/-- A draft holds what its entries say, and each of these is about a symbol that was declared. -/
structure TableUse.Filed (use : TableUse) : Prop where
  draft : use.draft = draftOf use.entries
  owned : ∀ entry ∈ use.entries, ∃ decl, entry.owner = some decl ∧
    (declarations use.entries)[decl.symbol]? = some decl.token
  last : ∀ id, use.draft.owners.get? id = lastOwner use.entries id

namespace TableUse.Filed

variable {use : TableUse} (filed : use.Filed)
include filed

/-- No token stands for a symbol that is not declared yet. -/
theorem unused : usesOf (declarations use.entries).length use.entries = [] := by
  rw [List.eq_nil_iff_forall_not_mem]
  intro id used
  obtain ⟨token, decl, member, symbol, _⟩ := mem_usesOf.mp used
  obtain ⟨other, owner, known⟩ := filed.owned _ member
  cases owner
  obtain ⟨bound, _⟩ := List.getElem?_eq_some_iff.mp known
  omega

/-- One more entry, about a symbol that is known with it. -/
theorem append {entry : Entry} {decl : Decl} (owner : entry.owner = some decl)
    (known : (declarations (use.entries ++ [entry]))[decl.symbol]? = some decl.token) :
    TableUse.Filed ⟨draftOf (use.entries ++ [entry]), use.entries ++ [entry]⟩ where
  draft := rfl
  owned := by
    rw [List.forall_mem_append, List.forall_mem_singleton]
    refine ⟨fun earlier member => ?_, decl, owner, known⟩
    obtain ⟨other, owned, found⟩ := filed.owned earlier member
    exact ⟨other, owned, getElem?_declarations_append found _⟩
  last id := by
    have owners : (draftOf (use.entries ++ [entry])).owners = use.draft.owners.put entry.token.id decl.symbol := by
      rw [owners_draftOf_append, Entry.owned?, owner, filed.draft]
      rfl
    rw [owners, OrderedMap.get?_put, filed.last, lastOwner, lastOwner, List.reverse_append]
    by_cases here : entry.token.id = id <;> simp [here, owner]

/-- The symbols of the table are numbered from zero on. -/
theorem exists_id_iff {place : Nat} : (∃ symbol ∈ use.draft.build.symbols, symbol.id = place) ↔
    place < use.draft.references.length := by
  rw [filed.draft, symbols_draftOf, (length_draftOf use.entries).2]
  constructor
  · rintro ⟨symbol, member, id⟩
    obtain ⟨number, bound, rfl⟩ := List.mem_mapIdx.mp member
    rwa [← Int.ofNat.inj id]
  · intro bound
    exact ⟨_, List.mem_mapIdx.mpr ⟨place, bound, rfl⟩, rfl⟩

/-- A call fails only for its token or for its symbol. -/
theorem perform_fails_iff {call : TableCall} :
    (∃ fault next, call.perform.run use.draft = .error fault next) ↔
      call.token.kind ≠ .name ∨ ∃ place token, call = .refer place token ∧
        ¬ ∃ symbol ∈ use.draft.build.symbols, symbol.id = place := by
  simp only [filed.exists_id_iff, Nat.not_lt]
  have effect := call.perform_effect use.draft
  generalize call.perform.run use.draft = outcome at effect
  cases effect with
  | declared name => simp [TableCall.token, name]
  | referred name known => simp [TableCall.token, name, known]
  | noName other => simp [other]
  | noSymbol unknown => simp [unknown]

/-- What a call that succeeds comes to: a declared symbol, and the draft that holds the entry as well. -/
theorem perform_filed {call : TableCall} {symbol : Int} {next : TableDraft}
    (performed : call.perform.run use.draft = .ok symbol next) :
    next = draftOf (use.entries ++ [call.entry use.entries]) ∧ ∃ decl,
      (call.entry use.entries).owner = some decl ∧ symbol = decl.symbol ∧
      (declarations (use.entries ++ [call.entry use.entries]))[decl.symbol]? = some decl.token := by
  obtain ⟨names, references⟩ := length_draftOf use.entries
  rw [← filed.draft] at names references
  have effect := call.perform_effect use.draft
  rw [performed] at effect
  cases effect with
  | @declared token =>
    have made := draftOf_declared ⟨token, (declarations use.entries).length⟩ filed.unused
    rw [← filed.draft, ← names] at made
    refine ⟨?_, _, rfl, congrArg _ names, ?_⟩
    · rw [TableCall.entry, ← names, made]
    · simp [TableCall.entry]
  | @referred place token _ bound =>
    rw [references] at bound
    obtain ⟨home, found⟩ : ∃ home, (declarations use.entries)[place]? = some home :=
      ⟨_, List.getElem?_eq_getElem bound⟩
    have made := draftOf_referred use.entries token ⟨home, place⟩
    rw [← filed.draft] at made
    have entry : (TableCall.refer place token).entry use.entries = .referred token (some ⟨home, place⟩) := by
      rw [TableCall.entry, found, Option.map_some]
    rw [entry]
    exact ⟨made.symm, ⟨home, place⟩, rfl, rfl, getElem?_declarations_append found _⟩

theorem step (call : TableCall) : (use.step call).Filed := by
  rw [TableUse.step]
  split
  · next failed =>
    rw [TableCall.perform_error failed]
    exact filed
  · next performed =>
    obtain ⟨rfl, decl, owner, _, known⟩ := filed.perform_filed performed
    exact filed.append owner known

end TableUse.Filed

theorem TableUse.run_filed (calls : List TableCall) : (run calls).Filed := by
  have start : TableUse.start.Filed := ⟨rfl, List.forall_mem_nil _, fun _ => rfl⟩
  suffices kept : ∀ use : TableUse, use.Filed → (calls.foldl TableUse.step use).Filed from kept _ start
  induction calls with
  | nil => exact fun _ filed => filed
  | cons call rest ih => exact fun use filed => ih _ (filed.step call)

namespace TableUse.Filed

variable {use : TableUse} (filed : use.Filed)
include filed

/-- A token occurs for each symbol that it was ever given. -/
theorem exists_occurrence {entry : Entry} (member : entry ∈ use.entries) :
    ∃ decl symbol, entry.owner = some decl ∧ symbol ∈ use.draft.build.symbols ∧
      symbol.id = decl.symbol ∧ entry.token.id ∈ symbol.occurrences := by
  obtain ⟨decl, owner, known⟩ := filed.owned entry member
  have found := symbols_getElem? known
  rw [← filed.draft] at found
  refine ⟨decl, _, owner, List.mem_of_getElem? found, rfl, ?_⟩
  rw [Symbol.occurrences, List.singleton_append, List.mem_cons, List.mem_mergeSort, mem_usesOf]
  cases entry with
  | declared made =>
    cases owner
    exact .inl rfl
  | referred token made =>
    cases owner
    exact .inr ⟨token, decl, member, rfl, rfl⟩

theorem exists_entry {symbol : Symbol} (known : symbol ∈ use.draft.build.symbols) {id : Int}
    (occurs : id ∈ symbol.occurrences) : ∃ entry ∈ use.entries, entry.token.id = id := by
  rw [filed.draft] at known
  obtain ⟨number, found⟩ := List.mem_iff_getElem?.mp known
  obtain ⟨token, declared, rfl⟩ := symbols_getElem?_iff.mp found
  rw [Symbol.occurrences, List.singleton_append, List.mem_cons, List.mem_mergeSort, mem_usesOf] at occurs
  rcases occurs with rfl | ⟨other, decl, used, _, rfl⟩
  · obtain ⟨entry, member, made⟩ := List.mem_filterMap.mp (List.mem_of_getElem? declared)
    cases entry with
    | declared decl =>
      cases made
      exact ⟨_, member, rfl⟩
    | referred => cases made
  · exact ⟨_, used, rfl⟩

theorem mem_keys_iff {id : Int} : id ∈ use.draft.build.owners.keys ↔
    ∃ symbol ∈ use.draft.build.symbols, id ∈ symbol.occurrences := by
  constructor
  · intro key
    rw [filed.draft] at key
    obtain ⟨entry, member, _, rfl⟩ := mem_keys_draftOf.mp key
    obtain ⟨_, symbol, _, known, _, occurs⟩ := filed.exists_occurrence member
    exact ⟨symbol, known, occurs⟩
  · rintro ⟨symbol, known, occurs⟩
    obtain ⟨entry, member, rfl⟩ := filed.exists_entry known occurs
    obtain ⟨decl, owner, _⟩ := filed.owned entry member
    rw [filed.draft]
    exact mem_keys_draftOf.mpr ⟨entry, member, by rw [owner]; rfl, rfl⟩

theorem owner_occurs {id number : Int} (owned : lastOwner use.entries id = some number) :
    ∃ symbol ∈ use.draft.build.symbols, symbol.id = number ∧ id ∈ symbol.occurrences := by
  obtain ⟨entry, found, given⟩ := Option.bind_eq_some_iff.mp owned
  have here := List.find?_some found
  have same : entry.token.id = id := of_decide_eq_true here
  have member : entry ∈ use.entries := List.mem_reverse.mp (List.mem_of_find?_eq_some found)
  obtain ⟨decl, symbol, owner, known, numbered, occurs⟩ := filed.exists_occurrence member
  rw [owner] at given
  cases given
  exact ⟨symbol, known, numbered, same ▸ occurs⟩

end TableUse.Filed

/-- How the indexes of a table agree with each other, and with the entries that they were made from. -/
structure SymbolTable.Indexes (table : SymbolTable) (entries : List Entry) : Prop where
  count : table.symbols.length = (declarations entries).length
  symbol : ∀ (number : Nat) symbol, table.symbols[number]? = some symbol → symbol.id = number ∧
    (∃ token, (declarations entries)[number]? = some token ∧ symbol.name = token.text ∧
      symbol.definitions = [token.id]) ∧
    symbol.references.Pairwise (· ≤ ·) ∧ symbol.references.Perm (usesOf number entries)
  keys : ∀ id, id ∈ table.owners.keys ↔ ∃ symbol ∈ table.symbols, id ∈ symbol.occurrences
  owner : ∀ id, table.owners.get? id = lastOwner entries id
  occurs : ∀ id number, table.owners.get? id = some number →
    ∃ symbol ∈ table.symbols, symbol.id = number ∧ id ∈ symbol.occurrences

theorem TableUse.Filed.indexes {use : TableUse} (filed : use.Filed) :
    use.draft.build.Indexes use.entries where
  count := by rw [filed.draft, symbols_draftOf, List.length_mapIdx]
  symbol number symbol found := by
    rw [filed.draft] at found
    obtain ⟨token, declared, rfl⟩ := symbols_getElem?_iff.mp found
    exact ⟨rfl, ⟨token, declared, rfl, rfl⟩, List.pairwise_mergeSort' _ _, List.mergeSort_perm _ _⟩
  keys _ := filed.mem_keys_iff
  owner := filed.last
  occurs id number owned := filed.owner_occurs ((filed.last id).symm.trans owned)

/-- Whatever calls are made on a table draft, its indexes stay consistent. A call fails exactly if its
token is no name or its symbol is unknown, and the draft that it leaves behind then is the one before
it. The calls that succeed are all that a table holds: a symbol for each declaration with one definition
and all its references in order, and for each token that occurs in a symbol the symbol that it was given
last. -/
theorem table_calls_keep_indexes (calls : List TableCall) :
    let use := TableUse.run calls
    (∀ call : TableCall, (∃ fault next, call.perform.run use.draft = .error fault next) ↔
      call.token.kind ≠ .name ∨ ∃ place token, call = .refer place token ∧
        ¬ ∃ symbol ∈ use.draft.build.symbols, symbol.id = place) ∧
    (∀ (call : TableCall) fault next, call.perform.run use.draft = .error fault next →
      next = use.draft ∧ TableUse.run (calls ++ [call]) = use) ∧
    (∀ (call : TableCall) symbol next, call.perform.run use.draft = .ok symbol next →
      TableUse.run (calls ++ [call]) = ⟨next, use.entries ++ [call.entry use.entries]⟩ ∧
        ∃ decl, (call.entry use.entries).owner = some decl ∧ symbol = decl.symbol) ∧
    use.draft.build.Indexes use.entries := by
  intro use
  have filed : use.Filed := TableUse.run_filed calls
  have after (call : TableCall) : TableUse.run (calls ++ [call]) = use.step call := by
    rw [TableUse.run, List.foldl_append]
    rfl
  refine ⟨fun call => filed.perform_fails_iff, ?_, ?_, filed.indexes⟩
  · intro call fault next failed
    obtain rfl := TableCall.perform_error failed
    rw [after, TableUse.step, failed]
    exact ⟨rfl, rfl⟩
  · intro call symbol next performed
    obtain ⟨_, decl, owner, same, _⟩ := filed.perform_filed performed
    rw [after, TableUse.step, performed]
    exact ⟨rfl, decl, owner, same⟩

/-- A token that is given away twice, a symbol with a repeated reference, and calls that fail. -/
theorem table_calls_keep_indexes_of_repeated_token :
    let name (id : Int) : Token := ⟨id, .name, "x", .point ⟨0, 0⟩, ""⟩
    let word : Token := ⟨6, .letWord, "let", .point ⟨0, 0⟩, ""⟩
    let calls : List TableCall := [.declare (name 4), .refer 0 (name 9), .refer 1 (name 7),
      .refer 0 (name 2), .declare (name 9), .declare word, .refer 0 (name 9)]
    let table := (TableUse.run calls).draft.build
    TableUse.run (calls ++ [.refer 0 word]) = TableUse.run calls ∧
      table.owners.keys = [4, 9, 2] ∧ table.owners.get? 9 = some 0 ∧
      ∃ first second, table.symbols = [first, second] ∧ first.references = [2, 9, 9] ∧
        second.definitions = [9] ∧ 9 ∈ second.occurrences := by
  intro name word calls table
  obtain ⟨fails, unchanged, _, indexes⟩ := table_calls_keep_indexes calls
  have wrong : (TableCall.refer 0 word).token.kind ≠ .name := by decide
  obtain ⟨fault, next, failed⟩ := (fails (.refer 0 word)).mpr (.inl wrong)
  have own : declarations (TableUse.run calls).entries = [name 4, name 9] := by decide +kernel
  have count := indexes.count
  rw [own] at count
  obtain ⟨first, second, both⟩ : ∃ first second, table.symbols = [first, second] :=
    List.length_eq_two.mp count
  obtain ⟨_, _, sorted, perm⟩ := indexes.symbol 0 first (congrArg (·[0]?) both)
  obtain ⟨_, ⟨token, declared, _, definitions⟩, _, _⟩ := indexes.symbol 1 second (congrArg (·[1]?) both)
  rw [own] at declared
  cases declared
  refine ⟨(unchanged _ _ _ failed).2, by decide +kernel, by decide +kernel, first, second, both, ?_, definitions, ?_⟩
  · have uses : usesOf 0 (TableUse.run calls).entries = [9, 2, 9] := by decide +kernel
    have same : [9, 2, 9].Perm [2, 9, (9 : Int)] := by decide
    rw [uses] at perm
    exact (perm.trans same).eq_of_pairwise (fun _ _ _ _ => Int.le_antisymm) sorted (by decide)
  · rw [Symbol.occurrences, definitions]
    exact List.mem_cons_self

end LineScript
