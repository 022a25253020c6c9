import LineScript.Proofs.Queries
import LineScript.Proofs.Scoping

namespace LineScript

open Grammar

namespace Sight

theorem all_leave (sight : Sight) : (sight.step false .leave).all = sight.all := by
  obtain ⟨inner, outer, next⟩ := sight
  cases outer <;> simp [step, all]

theorem all_leave_sublist (sight : Sight) : (sight.step true .leave).all.Sublist sight.all := by
  obtain ⟨inner, outer, next⟩ := sight
  cases outer with
  | nil => exact .refl _
  | cons frame outer => exact List.sublist_append_right inner _

/-- What is in sight under block scoping, and what is without it. There declarations are never lost,
so all of them are in sight, the latest first. -/
structure Narrows (strict lax : Sight) : Prop where
  next : strict.next = lax.next
  sublist : strict.all.Sublist lax.all
  latest : lax.all.Pairwise (·.symbol > ·.symbol)
  known : ∀ decl ∈ lax.all, decl.symbol < lax.next

namespace Narrows

theorem start : Narrows .start .start := ⟨rfl, .refl _, .nil, by simp [Sight.start, all]⟩

variable {strict lax : Sight} (narrows : Narrows strict lax)
include narrows

theorem step (event : NameEvent) : Narrows (strict.step true event) (lax.step false event) := by
  cases event with
  | declare token =>
    have one : (strict.step true (.declare token)).all = ⟨token, strict.next⟩ :: strict.all := rfl
    have two : (lax.step false (.declare token)).all = ⟨token, lax.next⟩ :: lax.all := rfl
    refine ⟨congrArg (· + 1) narrows.next, ?_, ?_, ?_⟩
    · rw [one, two, narrows.next]
      exact narrows.sublist.cons_cons _
    · rw [two]
      exact List.pairwise_cons.mpr ⟨narrows.known, narrows.latest⟩
    · rw [two]
      intro decl member
      rcases List.mem_cons.mp member with rfl | earlier
      · exact Nat.lt_succ_self _
      · exact Nat.lt_succ_of_lt (narrows.known decl earlier)
  | refer token => exact narrows
  | enter => exact ⟨narrows.next, narrows.sublist, narrows.latest, narrows.known⟩
  | leave =>
    have next (mode : Bool) (sight : Sight) : (sight.step mode .leave).next = sight.next := by
      obtain ⟨inner, outer, next⟩ := sight
      cases outer <;> rfl
    refine ⟨?_, ?_, ?_, ?_⟩
    · rw [next, next, narrows.next]
    · rw [all_leave]
      exact strict.all_leave_sublist.trans narrows.sublist
    · rw [all_leave]
      exact narrows.latest
    · rw [all_leave, next]
      exact narrows.known
  | reject label => exact narrows

end Narrows

end Sight

/-- Among declarations, latest first, a search finds nothing earlier than what satisfies it. -/
theorem find?_latest {decls : List Decl} (latest : decls.Pairwise (·.symbol > ·.symbol)) {decl : Decl}
    (member : decl ∈ decls) {wanted : Decl → Bool} (fits : wanted decl) :
    ∃ other, decls.find? wanted = some other ∧ decl.symbol ≤ other.symbol := by
  induction decls with
  | nil => cases member
  | cons first rest ih =>
    obtain ⟨before, later⟩ := List.pairwise_cons.mp latest
    by_cases here : wanted first
    · refine ⟨first, List.find?_cons_of_pos here, ?_⟩
      rcases List.mem_cons.mp member with rfl | behind
      · exact Nat.le_refl _
      · exact Nat.le_of_lt (before decl behind)
    · have behind : decl ∈ rest := by
        refine (List.mem_cons.mp member).resolve_left ?_
        rintro rfl
        exact here fits
      obtain ⟨other, found, order⟩ := ih later behind
      exact ⟨other, (List.find?_cons_of_neg here).trans found, order⟩

theorem Sight.Narrows.find? {strict lax : Sight} (narrows : Narrows strict lax) {name : String}
    {decl : Decl} (found : strict.find? name = some decl) :
    ∃ other, lax.find? name = some other ∧ decl.symbol ≤ other.symbol := by
  have member := narrows.sublist.subset (List.mem_of_find?_eq_some found)
  have fits := List.find?_some found
  exact find?_latest narrows.latest member fits

/-- What becomes of a name under block scoping, and without it. -/
inductive Entry.Narrows : Entry → Entry → Prop
  | declared {decl} : Narrows (.declared decl) (.declared decl)
  | referred {token strict lax} :
      (∀ decl ∈ strict, ∃ other ∈ lax, Decl.symbol decl ≤ Decl.symbol other) →
      Narrows (.referred token strict) (.referred token lax)

namespace Entry.Narrows

variable {strict lax : Entry} (narrows : strict.Narrows lax)
include narrows

theorem token : lax.token = strict.token := by
  cases narrows <;> rfl

theorem owner {decl : Decl} (owned : strict.owner = some decl) :
    ∃ other, lax.owner = some other ∧ decl.symbol ≤ other.symbol := by
  cases narrows with
  | declared => exact ⟨decl, owned, Nat.le_refl _⟩
  | referred later => exact later decl owned

end Entry.Narrows

/-- Name by name, block scoping narrows what a name can stand for. -/
theorem ledger_narrows {strict lax : Sight} (narrows : strict.Narrows lax) (events : List NameEvent) :
    List.Forall₂ Entry.Narrows (ledger true strict events) (ledger false lax events) := by
  induction events generalizing strict lax with
  | nil => exact .nil
  | cons event rest ih =>
    have later := ih (narrows.step event)
    cases event with
    | declare token =>
      refine .cons ?_ later
      rw [narrows.next]
      exact .declared
    | refer token => exact .cons (.referred fun decl found => narrows.find? found) later
    | enter => exact later
    | leave => exact later
    | reject label => exact later

theorem warnings_sublist {strict lax : List Entry} (narrows : List.Forall₂ Entry.Narrows strict lax) :
    (warnings lax).Sublist (warnings strict) := by
  induction narrows with
  | nil => exact .slnil
  | @cons one two rest others pair _ ih =>
    have split (entry : Entry) (entries : List Entry) :
        warnings (entry :: entries) = warnings [entry] ++ warnings entries :=
      warnings_append [entry] entries
    rw [split one, split two]
    refine List.Sublist.append ?_ ih
    cases pair with
    | declared => exact .refl _
    | @referred token strict lax later =>
      cases lax with
      | some decl => exact List.nil_sublist _
      | none =>
        cases strict with
        | none => exact .refl _
        | some decl =>
          obtain ⟨other, found, _⟩ := later decl rfl
          cases found

namespace Node

/-- The names that are declared anywhere inside a block. -/
def localLets : Node → List Token
  | block _ _ _ _ body _ => (walkOf body).filterMap binds
  | _ => []

theorem binds_of_walk {node : Node} (silent : ∀ part ∈ node.walk, part.binds = none) :
    node.binds = none := by
  cases node with
  | binding => exact silent _ List.mem_cons_self
  | _ => rfl

theorem mem_walk_of_body {part : Node} {body : List Node} (member : part ∈ walkOf body)
    (form : BlockForm) (keyword : Token) (condition headerEnd ending : Node) :
    part ∈ (block form keyword condition headerEnd body ending).walk := by
  simp only [walk, List.mem_cons, List.mem_append, member, true_or, or_true]

theorem mem_walkOf_cons {part node : Node} {rest : List Node} :
    part ∈ walkOf (node :: rest) ↔ part ∈ node.walk ∨ part ∈ walkOf rest :=
  List.mem_append

end Node

/-- Uses and declarations are the same in both modes. -/
theorem ledger_statement (sight : Sight) (uses : List Token) (declared : Option Token) :
    ledger true sight (uses.map .refer ++ declared.toList.map .declare) =
        ledger false sight (uses.map .refer ++ declared.toList.map .declare) ∧
      sight.run true (uses.map .refer ++ declared.toList.map .declare) =
        sight.run false (uses.map .refer ++ declared.toList.map .declare) := by
  simp only [ledger_append, run_append, (ledger_refer _ _ _).1, (ledger_refer _ _ _).2]
  cases declared <;> exact ⟨rfl, rfl⟩

/-- A block that declares nothing leaves in sight what was there. -/
theorem run_block {mode : Bool} {sight : Sight} {events : List NameEvent}
    (still : ∀ sight : Sight, sight.run mode events = sight) :
    sight.run mode (.enter :: (events ++ [.leave])) = sight := by
  have entered : sight.run mode (.enter :: (events ++ [.leave])) =
      (sight.step mode .enter).run mode (events ++ [.leave]) := rfl
  rw [entered, run_append, still]
  cases mode <;> rfl

theorem ledger_block (mode : Bool) (sight : Sight) (events : List NameEvent) :
    ledger mode sight (.enter :: (events ++ [.leave])) =
      ledger mode ⟨[], sight.inner :: sight.outer, sight.next⟩ events := by
  have entered : ledger mode sight (.enter :: (events ++ [.leave])) =
      ledger mode ⟨[], sight.inner :: sight.outer, sight.next⟩ (events ++ [.leave]) := rfl
  rw [entered, ledger_append]
  exact List.append_nil _

namespace Grammar

variable {used : List Token} {depth : Int} {nodes : List Node}

/-- Statements that declare nothing leave in sight what was there. -/
theorem Statements.still (derived : Statements keptFailures depth used nodes)
    (silent : ∀ part ∈ Node.walkOf nodes, part.binds = none) (mode : Bool) (sight : Sight) :
    sight.run mode (Node.eventsOf nodes) = sight := by
  induction derived generalizing sight with
  | nil => rfl
  | stray _ _ ih => exact ih silent sight
  | simple statement _ ih =>
    have here := Node.binds_of_walk fun part member =>
      silent part (Node.mem_walkOf_cons.mpr (.inl member))
    rw [Node.eventsOf, run_append, ih fun part member =>
      silent part (Node.mem_walkOf_cons.mpr (.inr member)), statement.events.1, here, run_append,
      (ledger_refer _ _ _).2]
    rfl
  | block _ _ test _ _ _ _ ihBody ihAfter =>
    have body := ihBody fun part member =>
      silent part (Node.mem_walkOf_cons.mpr (.inl (Node.mem_walk_of_body member ..)))
    rw [Node.eventsOf, Node.events, run_append, run_append, test.events.1, (ledger_refer _ _ _).2,
      run_block body]
    exact ihAfter (fun part member => silent part (Node.mem_walkOf_cons.mpr (.inr member))) sight
  | tooDeep _ failed _ ih =>
    rw [Node.eventsOf, (keptFailures_silent failed).1]
    exact ih (fun part member => silent part (Node.mem_walkOf_cons.mpr (.inr member))) sight

/-- Where no block declares anything, the modes do not differ. -/
theorem Statements.modes_agree (derived : Statements keptFailures depth used nodes)
    (outermost : ∀ part ∈ Node.walkOf nodes, part.localLets = []) (sight : Sight) :
    ledger true sight (Node.eventsOf nodes) = ledger false sight (Node.eventsOf nodes) ∧
      sight.run true (Node.eventsOf nodes) = sight.run false (Node.eventsOf nodes) := by
  induction derived generalizing sight with
  | nil => exact ⟨rfl, rfl⟩
  | stray _ _ ih => exact ih outermost sight
  | @simple _ _ node _ nodes statement _ ih =>
    have here := ledger_statement sight node.uses node.binds
    rw [← statement.events.1] at here
    have later := ih (fun part member => outermost part (Node.mem_walkOf_cons.mpr (.inr member)))
      (sight.run false node.events)
    rw [Node.eventsOf, ledger_append, ledger_append, run_append, run_append, here.1, here.2]
    exact ⟨congrArg _ later.1, later.2⟩
  | @block _ form keyword condition headerEnd body ending _ nodes _ _ _ _ _ _ test _ inside _ _
      ihBody ihAfter =>
    have silent := List.filterMap_eq_nil_iff.mp
      (outermost _ (Node.mem_walkOf_cons.mpr (.inl List.mem_cons_self)))
    -- The body declares nothing, so both modes come out of the block as they went in.
    have still (mode : Bool) := @run_block mode sight _ (inside.still silent mode)
    have same := ihBody (fun part member => outermost part
      (Node.mem_walkOf_cons.mpr (.inl (Node.mem_walk_of_body member ..))))
    have later := ihAfter (fun part member => outermost part
      (Node.mem_walkOf_cons.mpr (.inr member))) sight
    rw [Node.eventsOf, Node.events, test.events.1]
    simp only [ledger_append, run_append, (ledger_refer _ _ _).1, (ledger_refer _ _ _).2,
      ledger_block, still, (same _).1, later.1, later.2, and_self]
  | tooDeep _ failed _ ih =>
    rw [Node.eventsOf, (keptFailures_silent failed).1]
    exact ih (fun part member => outermost part (Node.mem_walkOf_cons.mpr (.inr member))) sight

end Grammar

namespace Consistent

/-- The symbol of a declaration has the text of each name that stands for it. -/
theorem exists_symbol {entries : List Entry} (consistent : Consistent entries) {entry : Entry}
    (member : entry ∈ entries) {decl : Decl} (owner : entry.owner = some decl) :
    ∃ symbol ∈ (draftOf entries).build.symbols, symbol.id = decl.symbol ∧
      symbol.name = entry.token.text ∧
      (draftOf entries).build.owners.get? entry.token.id = some symbol.id := by
  refine ⟨_, List.mem_of_getElem? (symbols_getElem? (consistent.owner entry member decl owner)), rfl,
    consistent.text entry member decl owner, ?_⟩
  rw [owners_get? consistent.nodup member, owner]
  rfl

theorem exists_entry {entries : List Entry} (consistent : Consistent entries) {id number : Int}
    (owned : (draftOf entries).build.owners.get? id = some number) :
    ∃ entry ∈ entries, entry.token.id = id ∧
      ∃ decl, entry.owner = some decl ∧ decl.symbol = number := by
  obtain ⟨symbol, listed, _, occurs⟩ := consistent.owners_get?_iff.mp owned
  obtain ⟨place, found⟩ := List.mem_iff_getElem?.mp listed
  obtain ⟨entry, member, rfl, _⟩ := consistent.exists_of_mem_occurrences found occurs
  rw [owners_get? consistent.nodup member] at owned
  exact ⟨entry, member, rfl, Option.map_eq_some_iff.mp owned⟩

/-- A token that has an owner under block scoping has one of the same name without it, declared there or
later. -/
theorem owner_narrows {strict lax : List Entry} (consistent : Consistent strict)
    (others : Consistent lax) (narrows : List.Forall₂ Entry.Narrows strict lax) {id number : Int}
    (owned : (draftOf strict).build.owners.get? id = some number) :
    ∃ one ∈ (draftOf strict).build.symbols, ∃ other ∈ (draftOf lax).build.symbols,
      one.id = number ∧ (draftOf lax).build.owners.get? id = some other.id ∧
      other.name = one.name ∧ one.id ≤ other.id := by
  obtain ⟨entry, member, rfl, decl, owner, rfl⟩ := consistent.exists_entry owned
  obtain ⟨partner, among, narrow⟩ := exists_of_forall₂ narrows member
  obtain ⟨later, also, order⟩ := narrow.owner owner
  obtain ⟨one, listed, number, name, _⟩ := consistent.exists_symbol member owner
  obtain ⟨other, present, second, text, held⟩ := others.exists_symbol among also
  rw [narrow.token] at text held
  exact ⟨one, listed, other, present, number, held, text.trans name.symm, by omega⟩

end Consistent

/-- The analyses of one text with block scoping and without it. -/
structure Model.Narrows (strict lax : Model) : Prop where
  symbols : strict.table.symbols.map (fun symbol => (symbol.id, symbol.name, symbol.definitions)) =
    lax.table.symbols.map fun symbol => (symbol.id, symbol.name, symbol.definitions)
  reports : lax.nameDiagnostics.Sublist strict.nameDiagnostics
  owners : ∀ id number, strict.table.owners.get? id = some number →
    ∃ one ∈ strict.table.symbols, ∃ other ∈ lax.table.symbols, one.id = number ∧
      lax.table.owners.get? id = some other.id ∧ other.name = one.name ∧ one.id ≤ other.id

/-- Block scoping only narrows what names stand for, and only blocks that declare names make a
difference. -/
theorem analyze_modes_related (source : String) :
    ∃ strict lax, analyze source true = .ok strict ∧ analyze source false = .ok lax ∧
      strict.Narrows lax ∧
      ((∀ node ∈ strict.root.walk, node.localLets = []) →
        strict.table = lax.table ∧ strict.nameDiagnostics = lax.nameDiagnostics) := by
  have narrows : List.Forall₂ Entry.Narrows (entriesOf source true) (entriesOf source false) :=
    ledger_narrows Sight.Narrows.start _
  refine ⟨_, _, analyze_eq source true, analyze_eq source false, ⟨?_, ?_, ?_⟩, ?_⟩
  · refine List.ext_getElem? fun number => ?_
    simp only [symbols_draftOf, List.getElem?_map, List.getElem?_mapIdx, Option.map_map, entriesOf,
      declarations_ledger]
    rfl
  · exact warnings_sublist narrows
  · intro id number owned
    exact (entriesOf_consistent source true).owner_narrows (entriesOf_consistent source false)
      narrows owned
  · intro outermost
    obtain ⟨statements, eof, tree, derived⟩ := parseTokens_statements source
    have same : entriesOf source true = entriesOf source false := by
      simp only [entriesOf, tree] at outermost ⊢
      exact (derived.modes_agree (fun part member => outermost part
        (by simp only [Node.walk, List.mem_cons, member, or_true]))
        .start).1
    exact ⟨by rw [same], by rw [same]⟩

/-- Behind a block that hides a name the modes differ, and where blocks declare nothing they do not. -/
theorem analyze_modes_related_behind_block :
    (∃ strict lax, analyze "let x = 1\nif 1\nlet x = 2\nend\nx" true = .ok strict ∧
      analyze "let x = 1\nif 1\nlet x = 2\nend\nx" false = .ok lax ∧ strict.Narrows lax ∧
      strict.table.owners.get? 15 = some 0 ∧ lax.table.owners.get? 15 = some 1) ∧
    ∃ strict lax, analyze "let x = 1\nwhile y\nif 1\nset x = 2\n" true = .ok strict ∧
      analyze "let x = 1\nwhile y\nif 1\nset x = 2\n" false = .ok lax ∧
      (∀ node ∈ strict.root.walk, node.localLets = []) ∧ strict.table = lax.table ∧
      strict.nameDiagnostics = lax.nameDiagnostics := by
  constructor
  · obtain ⟨strict, lax, on, off, narrows, _⟩ :=
      analyze_modes_related "let x = 1\nif 1\nlet x = 2\nend\nx"
    have one : (analyze "let x = 1\nif 1\nlet x = 2\nend\nx" true).map
        (·.table.owners.get? 15) = .ok (some 0) := by decide +kernel
    have two : (analyze "let x = 1\nif 1\nlet x = 2\nend\nx" false).map
        (·.table.owners.get? 15) = .ok (some 1) := by decide +kernel
    rw [on] at one
    rw [off] at two
    exact ⟨strict, lax, on, off, narrows, Except.ok.inj one, Except.ok.inj two⟩
  · obtain ⟨strict, lax, on, off, _, equal⟩ :=
      analyze_modes_related "let x = 1\nwhile y\nif 1\nset x = 2\n"
    have silent : (analyze "let x = 1\nwhile y\nif 1\nset x = 2\n" true).map
        (·.root.walk.flatMap Node.localLets) = .ok [] := by decide +kernel
    rw [on] at silent
    have outermost := List.flatMap_eq_nil_iff.mp (Except.ok.inj silent)
    exact ⟨strict, lax, on, off, outermost, equal outermost⟩

end LineScript
