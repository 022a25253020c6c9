import LineScript.Proofs.Naming

namespace LineScript

open Grammar

/-- A statement or the header of a block, with the blocks around it: each by its place among the
statements of the one before, from the outermost inwards. -/
structure Site where
  home : List Nat
  node : Node

namespace Node

mutual

/-- The statements of a node that stands at some place in a block, each before those inside it. -/
def sitesAt (home : List Nat) (place : Nat) : Node → List Site
  | binding form keyword name equals value terminator =>
    [⟨home, binding form keyword name equals value terminator⟩]
  | expression value terminator => [⟨home, expression value terminator⟩]
  | block form keyword condition headerEnd body ending =>
    ⟨home, block form keyword condition headerEnd body ending⟩ :: sitesOf (home ++ [place]) 0 body
  | program statements _ => sitesOf home 0 statements
  | _ => []

def sitesOf (home : List Nat) (place : Nat) : List Node → List Site
  | [] => []
  | node :: rest => node.sitesAt home place ++ sitesOf home (place + 1) rest

end

/-- The statements of a program. -/
def sites (root : Node) : List Site := root.sitesAt [] 0

def isStatement : Node → Bool
  | binding _ _ _ _ _ _ => true
  | expression _ _ => true
  | block _ _ _ _ _ _ => true
  | _ => false

/-- The name that a node uses by itself: an operand, or the target of an assignment. -/
def reference? : Node → Option Token
  | binding .assign _ name _ _ _ => some name
  | node => node.name?

/-- The names that are used anywhere in a tree. -/
def references (root : Node) : List Token := root.walk.filterMap reference?

theorem reference?_eq_name? {node : Node} (other : node.isStatement = false) :
    node.reference? = node.name? := by
  cases node with
  | binding => cases other
  | _ => rfl

end Node

/-- The lets among some statements that can be seen from inside the blocks `home`: under block scoping
those that stand directly in one of them, else all. -/
def letsFrom (blockScoping : Bool) (home : List Nat) (sites : List Site) : List Token :=
  (sites.filter fun site => !blockScoping || site.home.isPrefixOf home).filterMap (·.node.binds)

/-- The let that a name stands for at a statement, given all statements before it. -/
def candidate? (blockScoping : Bool) (earlier : List Site) (home : List Nat) (name : String) :
    Option Token :=
  ((letsFrom blockScoping home earlier).filter (·.text = name)).getLast?

namespace Grammar

variable {used : List Token} {node : Node}

theorem keptFailures_inert {complaint : Complaint} (failed : keptFailures complaint used node) :
    node.walk.filter Node.isStatement = [] := by
  obtain ⟨range, rfl⟩ := failed
  rfl

theorem Expected.inert {kind : TokenKind} {complaint : Complaint}
    (derived : Expected keptFailures kind complaint used node) :
    node.walk.filter Node.isStatement = [] := by
  cases derived with
  | found => rfl
  | missed failed => exact keptFailures_inert failed

/-- No statement is part of an expression. -/
theorem Expression.inert (derived : Expression keptFailures used node) :
    node.walk.filter Node.isStatement = [] := by
  have operand {used : List Token} {node : Node} (derived : Atom keptFailures used node) :
      node.walk.filter Node.isStatement = [] := by
    cases derived with
    | found => rfl
    | missed failed => exact keptFailures_inert failed
  cases derived with
  | operand derived => exact operand derived
  | binary _ _ right => simp [Node.walk, Node.isStatement, operand right]
  | call _ _ closing => simp [Node.walk, Node.isStatement, closing.inert]
  | callWith _ _ _ closing => simp [Node.walk, Node.isStatement, closing.inert]

theorem Assigned.inert {value : Option Token × Node} (derived : Assigned keptFailures used value) :
    value.2.walk.filter Node.isStatement = [] := by
  cases derived with
  | found _ value => exact value.inert
  | missed failed => exact keptFailures_inert failed

theorem BlockEnd.inert (derived : BlockEnd keptFailures used node) :
    node.walk.filter Node.isStatement = [] := by
  cases derived with
  | bare => rfl
  | full => rfl
  | missed failed => exact keptFailures_inert failed

theorem Simple.sites (derived : Simple keptFailures used node) (home : List Nat) (place : Nat) :
    (node.sitesAt home place).map (·.node) = node.walk.filter Node.isStatement := by
  have silent {complaint : Complaint} (failed : keptFailures complaint used node) :
      (node.sitesAt home place).map (·.node) = node.walk.filter Node.isStatement := by
    obtain ⟨range, rfl⟩ := failed
    rfl
  cases derived with
  | binding _ _ value terminator =>
    simp [Node.sitesAt, Node.walk, List.filter_cons, Node.isStatement, value.inert, terminator.inert]
  | expression value terminator =>
    simp [Node.sitesAt, Node.walk, List.filter_cons, Node.isStatement, value.inert, terminator.inert]
  | nameless failed => exact silent failed
  | unexpectedEnd failed => exact silent failed
  | unreadable failed => exact silent failed

/-- The sites of a program are its statements, in the order of the walk. -/
theorem Statements.sites {depth : Int} {nodes : List Node}
    (derived : Statements keptFailures depth used nodes) (home : List Nat) (place : Nat) :
    (Node.sitesOf home place nodes).map (·.node) = (Node.walkOf nodes).filter Node.isStatement := by
  induction derived generalizing home place with
  | nil => rfl
  | stray _ _ ih => exact ih home place
  | simple statement _ ih =>
    simp only [Node.sitesOf, Node.walkOf, List.map_append, List.filter_append, ih, statement.sites]
  | block _ _ test header _ ending _ ihBody ihAfter =>
    simp [Node.sitesOf, Node.sitesAt, Node.walkOf, Node.walk, List.filter_cons, Node.isStatement,
      ihBody, ihAfter, test.inert, header.inert, ending.inert]
  | tooDeep _ failed _ ih =>
    obtain ⟨range, rfl⟩ := failed
    simpa [Node.sitesOf, Node.sitesAt, Node.walkOf, Node.walk, Node.isStatement] using ih _ _

end Grammar

theorem Node.references_eq_names {node : Node} (inert : node.walk.filter isStatement = []) :
    node.references = node.names := by
  rw [List.filter_eq_nil_iff] at inert
  exact List.filterMap_congr fun part member =>
    reference?_eq_name? (Bool.eq_false_iff.mpr (inert part member))

namespace Grammar

variable {used : List Token} {node : Node}

theorem BlockEnd.names (derived : BlockEnd keptFailures used node) : node.names = [] := by
  cases derived with
  | bare => rfl
  | full => rfl
  | missed failed => exact (keptFailures_silent failed).2.1

theorem Simple.references (derived : Simple keptFailures used node) (home : List Nat) (place : Nat)
    {name : Token} (member : name ∈ node.references) :
    ∃ site ∈ node.sitesAt home place, name ∈ site.node.uses := by
  have silent {complaint : Complaint} (failed : keptFailures complaint used node) :
      ∃ site ∈ node.sitesAt home place, name ∈ site.node.uses := by
    rw [Node.references_eq_names (keptFailures_inert failed),
      (keptFailures_silent failed).2.1] at member
    cases member
  cases derived with
  | @binding form keyword target inValue value after terminator opens _ assigned closed =>
    have inside := Node.references_eq_names assigned.inert
    have last := (Node.references_eq_names closed.inert).trans closed.names
    refine ⟨_, List.mem_singleton_self _, ?_⟩
    simp only [Node.references, Node.walk, List.filterMap_cons, List.filterMap_append] at *
    rw [inside, last, List.append_nil] at member
    cases form with
    | assign => simpa [Node.reference?, Node.uses, or_comm] using member
    | introduce => simpa [Node.reference?, Node.name?, Node.uses] using member
    | plain => simpa [Node.reference?, Node.name?, Node.uses] using member
  | @expression inValue value after terminator expression closed =>
    have inside := Node.references_eq_names expression.inert
    have last := (Node.references_eq_names closed.inert).trans closed.names
    refine ⟨_, List.mem_singleton_self _, ?_⟩
    simp only [Node.references, Node.walk, List.filterMap_cons, List.filterMap_append] at *
    rw [inside, last, List.append_nil] at member
    simpa [Node.reference?, Node.name?, Node.uses] using member
  | nameless failed => exact silent failed
  | unexpectedEnd failed => exact silent failed
  | unreadable failed => exact silent failed

/-- Every name that a program uses is used by one of its statements. -/
theorem Statements.references {depth : Int} {nodes : List Node}
    (derived : Statements keptFailures depth used nodes) (home : List Nat) (place : Nat) {name : Token}
    (member : name ∈ (Node.walkOf nodes).filterMap Node.reference?) :
    ∃ site ∈ Node.sitesOf home place nodes, name ∈ site.node.uses := by
  induction derived generalizing home place with
  | nil => cases member
  | stray _ _ ih => exact ih home place member
  | simple statement _ ih =>
    rw [Node.walkOf, List.filterMap_append, List.mem_append] at member
    rcases member with here | later
    · obtain ⟨site, inside, uses⟩ := statement.references home place here
      exact ⟨site, List.mem_append_left _ inside, uses⟩
    · obtain ⟨site, inside, uses⟩ := ih home (place + 1) later
      exact ⟨site, List.mem_append_right _ inside, uses⟩
  | block _ _ test header _ ending _ ihBody ihAfter =>
    have inTest := Node.references_eq_names test.inert
    have inHeader := (Node.references_eq_names header.inert).trans header.names
    have inEnding := (Node.references_eq_names ending.inert).trans ending.names
    simp only [Node.references] at inTest inHeader inEnding
    simp only [Node.walkOf, Node.walk, List.filterMap_append, List.filterMap_cons, inTest, inHeader,
      inEnding, Node.reference?, Node.name?, List.nil_append, List.mem_append] at member
    simp only [Node.sitesOf, Node.sitesAt, List.cons_append, List.mem_cons, List.mem_append]
    rcases member with (here | inBody) | later
    · exact ⟨_, .inl rfl, here⟩
    · obtain ⟨site, inside, uses⟩ := ihBody (home ++ [place]) 0 (by simpa using inBody)
      exact ⟨site, .inr (.inl inside), uses⟩
    · obtain ⟨site, inside, uses⟩ := ihAfter home (place + 1) later
      exact ⟨site, .inr (.inr inside), uses⟩
  | tooDeep _ failed _ ih =>
    obtain ⟨range, rfl⟩ := failed
    obtain ⟨site, inside, uses⟩ := ih home (place + 1) (by
      simpa [Node.walkOf, Node.walk, Node.reference?, Node.name?] using member)
    exact ⟨site, List.mem_append_right _ inside, uses⟩

end Grammar

/-- What the ledger says of a name that is used: the let that it stands for. -/
def Entry.verdict? : Entry → Option (Token × Option Token)
  | .declared _ => none
  | .referred token owner => some (token, owner.map (·.token))

/-- What the scoping rule says of the names that statements use, given all statements before. -/
def verdicts (blockScoping : Bool) (earlier : List Site) : List Site → List (Token × Option Token)
  | [] => []
  | site :: rest =>
    (site.node.uses.map fun token =>
      (token, candidate? blockScoping earlier site.home token.text)) ++
      verdicts blockScoping (earlier ++ [site]) rest

theorem verdicts_append (blockScoping : Bool) (earlier first second : List Site) :
    verdicts blockScoping earlier (first ++ second) =
      verdicts blockScoping earlier first ++ verdicts blockScoping (earlier ++ first) second := by
  induction first generalizing earlier with
  | nil => simp [verdicts]
  | cons site rest ih => simp [verdicts, ih]

/-- What is in sight after some events. -/
def Sight.run (blockScoping : Bool) (sight : Sight) (events : List NameEvent) : Sight :=
  events.foldl (Sight.step blockScoping) sight

theorem ledger_append (blockScoping : Bool) (sight : Sight) (first second : List NameEvent) :
    ledger blockScoping sight (first ++ second) =
      ledger blockScoping sight first ++
        ledger blockScoping (sight.run blockScoping first) second := by
  induction first generalizing sight with
  | nil => rfl
  | cons event rest ih =>
    simp only [List.cons_append, ledger, ih, List.append_assoc]
    rfl

theorem run_append (blockScoping : Bool) (sight : Sight) (first second : List NameEvent) :
    sight.run blockScoping (first ++ second) =
      (sight.run blockScoping first).run blockScoping second :=
  List.foldl_append

theorem ledger_refer (blockScoping : Bool) (sight : Sight) (tokens : List Token) :
    ledger blockScoping sight (tokens.map .refer) =
        tokens.map (fun token => .referred token (sight.find? token.text)) ∧
      sight.run blockScoping (tokens.map .refer) = sight := by
  induction tokens with
  | nil => exact ⟨rfl, rfl⟩
  | cons token rest ih =>
    refine ⟨?_, ih.2⟩
    rw [List.map_cons, List.map_cons, ledger, Sight.step, ih.1]
    rfl

theorem letsFrom_append (blockScoping : Bool) (home : List Nat) (first second : List Site) :
    letsFrom blockScoping home (first ++ second) =
      letsFrom blockScoping home first ++ letsFrom blockScoping home second := by
  simp [letsFrom]

/-- The lets that can be seen from inside the blocks `home` are in sight, and no earlier statement
stands inside a block at `place` or behind. -/
structure Seen (blockScoping : Bool) (earlier : List Site) (home : List Nat) (place : Nat)
    (sight : Sight) : Prop where
  tokens : sight.all.map (·.token) = (letsFrom blockScoping home earlier).reverse
  apart : ∀ site ∈ earlier, ∀ later, place ≤ later → ¬ home ++ [later] <+: site.home

theorem Seen.find? {blockScoping : Bool} {earlier : List Site} {home : List Nat} {place : Nat}
    {sight : Sight} (seen : Seen blockScoping earlier home place sight) (name : String) :
    (sight.find? name).map (·.token) = candidate? blockScoping earlier home name := by
  have found : (sight.find? name).map (·.token) =
      (sight.all.map (·.token)).find? (·.text = name) := by
    rw [List.find?_map]
    rfl
  rw [found, seen.tokens, candidate?, List.getLast?_eq_head?_reverse, ← List.filter_reverse,
    List.head?_filter]

theorem not_append_prefix (home : List Nat) (later : Nat) : ¬ home ++ [later] <+: home := by
  intro deeper
  have length := deeper.length_le
  rw [List.length_append, List.length_singleton] at length
  omega

/-- Events that belong to some statements inside the blocks `home`: the ledger judges their names by
the scoping rule, and their lets come into sight. -/
structure Plays (blockScoping : Bool) (earlier : List Site) (home : List Nat) (sight : Sight)
    (events : List NameEvent) (sites : List Site) : Prop where
  judged : (ledger blockScoping sight events).filterMap Entry.verdict? =
    verdicts blockScoping earlier sites
  grown : ∃ decls next, sight.run blockScoping events = ⟨decls ++ sight.inner, sight.outer, next⟩ ∧
    decls.map (·.token) = (letsFrom blockScoping home sites).reverse

namespace Plays

variable {blockScoping : Bool} {earlier sites others : List Site} {home : List Nat} {place : Nat}
  {sight : Sight} {events more : List NameEvent}

theorem nil : Plays blockScoping earlier home sight [] [] := ⟨rfl, [], sight.next, rfl, rfl⟩

theorem append (first : Plays blockScoping earlier home sight events sites)
    (second : Plays blockScoping (earlier ++ sites) home (sight.run blockScoping events) more others) :
    Plays blockScoping earlier home sight (events ++ more) (sites ++ others) := by
  obtain ⟨judged, decls, next, run, tokens⟩ := first
  obtain ⟨judgedLater, declsLater, nextLater, runLater, tokensLater⟩ := second
  refine ⟨?_, declsLater ++ decls, nextLater, ?_, ?_⟩
  · rw [ledger_append, List.filterMap_append, judged, judgedLater, verdicts_append]
  · rw [run_append, runLater, run, List.append_assoc]
  · rw [List.map_append, tokensLater, tokens, letsFrom_append, List.reverse_append]

theorem seen (plays : Plays blockScoping earlier home sight events sites)
    (before : Seen blockScoping earlier home place sight) {next : Nat} (forth : place ≤ next)
    (apart : ∀ site ∈ sites, ∀ later, next ≤ later → ¬ home ++ [later] <+: site.home) :
    Seen blockScoping (earlier ++ sites) home next (sight.run blockScoping events) := by
  obtain ⟨_, decls, number, run, tokens⟩ := plays
  refine ⟨?_, ?_⟩
  · have old := before.tokens
    simp only [Sight.all, List.map_append] at old ⊢
    rw [run, List.map_append, List.append_assoc, old, tokens, letsFrom_append, List.reverse_append]
  · intro site member later bound
    rcases List.mem_append.mp member with old | new
    · exact before.apart site old later (by omega)
    · exact apart site new later bound

/-- A statement, or the header of a block. -/
theorem site (seen : Seen blockScoping earlier home place sight) (node : Node) :
    Plays blockScoping earlier home sight
      (node.uses.map .refer ++ node.binds.toList.map .declare) [⟨home, node⟩] := by
  obtain ⟨uses, same⟩ := ledger_refer blockScoping sight node.uses
  refine ⟨?_, ?_⟩
  · rw [ledger_append, List.filterMap_append, uses, List.filterMap_map]
    have names : node.uses.filterMap (Entry.verdict? ∘ fun token =>
        .referred token (sight.find? token.text)) = verdicts blockScoping earlier [⟨home, node⟩] := by
      simp [verdicts, Function.comp_def, Entry.verdict?, seen.find?]
    rw [names]
    cases node.binds <;> simp [ledger, Sight.outcome?, Entry.verdict?]
  · rw [run_append, same]
    cases binds : node.binds with
    | none => exact ⟨[], sight.next, rfl, by simp [letsFrom, binds]⟩
    | some token => exact ⟨[⟨token, sight.next⟩], sight.next + 1, rfl, by simp [letsFrom, binds]⟩

/-- The body of a block. Under block scoping what it declares goes out of sight with it. -/
theorem block (seen : Seen blockScoping earlier home place sight)
    (body : ∀ {sight}, Seen blockScoping earlier (home ++ [place]) 0 sight →
      Plays blockScoping earlier (home ++ [place]) sight events sites)
    (inside : ∀ site ∈ sites, home ++ [place] <+: site.home) :
    Plays blockScoping earlier home sight (.enter :: (events ++ [.leave])) sites := by
  have entered : Seen blockScoping earlier (home ++ [place]) 0 (sight.step blockScoping .enter) := by
    refine ⟨?_, ?_⟩
    · have visible : letsFrom blockScoping (home ++ [place]) earlier =
          letsFrom blockScoping home earlier := by
        unfold letsFrom
        congr 1
        apply List.filter_congr
        intro site member
        have other : site.home ≠ home ++ [place] := by
          intro same
          exact seen.apart site member place (Nat.le_refl _) (same ▸ List.prefix_rfl)
        rw [Bool.eq_iff_iff]
        simp [List.isPrefixOf_iff_prefix, List.prefix_concat_iff, other]
      rw [visible, ← seen.tokens]
      simp [Sight.all, Sight.step]
    · intro site member later _ deeper
      exact seen.apart site member place (Nat.le_refl _) ((List.prefix_append _ _).trans deeper)
  obtain ⟨judged, decls, next, run, tokens⟩ := body entered
  have hidden : letsFrom true home sites = [] := by
    rw [letsFrom, List.filter_eq_nil_iff.mpr, List.filterMap_nil]
    intro site member visible
    have outer : site.home <+: home := by simpa using visible
    exact not_append_prefix home place ((inside site member).trans outer)
  have ran : sight.run blockScoping (.enter :: (events ++ [.leave])) =
      ((sight.step blockScoping .enter).run blockScoping events).step blockScoping .leave :=
    List.foldl_concat ..
  refine ⟨?_, ?_⟩
  · rw [ledger, ledger_append, List.filterMap_append, List.filterMap_append, judged]
    simp [Sight.outcome?, ledger]
  · rw [ran, run]
    cases blockScoping with
    | true => exact ⟨[], next, rfl, by rw [hidden]; rfl⟩
    | false =>
      refine ⟨decls, next, ?_, ?_⟩
      · simp [Sight.step]
      · simpa [letsFrom] using tokens

end Plays

namespace Grammar

variable {used : List Token} {node : Node}

theorem Simple.sitesAt_cases (derived : Simple keptFailures used node) (home : List Nat) (place : Nat) :
    node.sitesAt home place = [⟨home, node⟩] ∨ node.sitesAt home place = [] ∧ node.events = [] := by
  cases derived with
  | binding => exact .inl rfl
  | expression => exact .inl rfl
  | nameless failed => obtain ⟨range, rfl⟩ := failed; exact .inr ⟨rfl, rfl⟩
  | unexpectedEnd failed => obtain ⟨range, rfl⟩ := failed; exact .inr ⟨rfl, rfl⟩
  | unreadable failed => obtain ⟨range, rfl⟩ := failed; exact .inr ⟨rfl, rfl⟩

theorem Simple.homes (derived : Simple keptFailures used node) (home : List Nat) (place : Nat) :
    ∀ site ∈ node.sitesAt home place, site.home = home := by
  rcases derived.sitesAt_cases home place with one | none
  · simp [one]
  · simp [none.1]

theorem Statements.homes {depth : Int} {nodes : List Node}
    (derived : Statements keptFailures depth used nodes) (home : List Nat) (place : Nat) :
    ∀ site ∈ Node.sitesOf home place nodes, home <+: site.home := by
  induction derived generalizing home place with
  | nil => simp [Node.sitesOf]
  | stray _ _ ih => exact ih home place
  | simple statement _ ih =>
    rw [Node.sitesOf, List.forall_mem_append]
    exact ⟨fun site member => statement.homes home place site member ▸ List.prefix_rfl, ih _ _⟩
  | block _ _ _ _ _ _ _ ihBody ihAfter =>
    simp only [Node.sitesOf, Node.sitesAt, List.cons_append, List.forall_mem_cons,
      List.forall_mem_append]
    exact ⟨List.prefix_rfl, fun site member =>
      (List.prefix_append _ _).trans (ihBody (home ++ [place]) 0 site member), ihAfter _ _⟩
  | tooDeep _ failed _ ih =>
    obtain ⟨range, rfl⟩ := failed
    exact ih home (place + 1)

/-- The names of a program are judged by the scoping rule. -/
theorem Statements.plays {depth : Int} {nodes : List Node}
    (derived : Statements keptFailures depth used nodes) {blockScoping : Bool} {earlier : List Site}
    {home : List Nat} {place : Nat} {sight : Sight}
    (seen : Seen blockScoping earlier home place sight) :
    Plays blockScoping earlier home sight (Node.eventsOf nodes) (Node.sitesOf home place nodes) := by
  induction derived generalizing earlier home place sight with
  | nil => exact .nil
  | stray _ _ ih => exact ih seen
  | @simple _ _ node _ _ statement _ ih =>
    have here : Plays blockScoping earlier home sight node.events (node.sitesAt home place) := by
      rcases statement.sitesAt_cases home place with one | ⟨none, silent⟩
      · rw [one, statement.events.1]
        exact .site seen node
      · rw [none, silent]
        exact .nil
    refine here.append (ih (here.seen seen (Nat.le_succ _) ?_))
    intro site member later _
    rw [statement.homes home place site member]
    exact not_append_prefix home later
  | @block _ form keyword condition headerEnd body ending _ nodes _ _ _ _ _ _ test _ derived _ _ ihBody
      ihAfter =>
    have header := Plays.site seen (.block form keyword condition headerEnd body ending)
    have within := header.seen seen (Nat.le_refl _) (by
      intro site member later _
      rw [List.mem_singleton.mp member]
      exact not_append_prefix home later)
    have inside := derived.homes (home ++ [place]) 0
    have whole := header.append (.block within (fun seen => ihBody seen) inside)
    have events : (Node.block form keyword condition headerEnd body ending).events =
        (Node.block form keyword condition headerEnd body ending).uses.map .refer ++
          (Node.block form keyword condition headerEnd body ending).binds.toList.map .declare ++
          .enter :: (Node.eventsOf body ++ [.leave]) := by
      simp [Node.events, test.events.1, Node.uses, Node.binds]
    rw [← events] at whole
    refine whole.append (ihAfter (whole.seen seen (Nat.le_succ _) ?_))
    intro site member later bound deeper
    rcases List.mem_cons.mp member with rfl | inBody
    · exact not_append_prefix home later deeper
    · have within := List.prefix_of_prefix_length_le (inside site inBody) deeper (by simp)
      have same : place = later := by simpa using within.eq_of_length (by simp)
      omega
  | tooDeep _ failed _ ih =>
    obtain ⟨range, rfl⟩ := failed
    have next : Seen blockScoping earlier home (place + 1) sight :=
      ⟨seen.tokens, fun site member later bound => seen.apart site member later (by omega)⟩
    exact ih next

end Grammar

/-- A name is attached to the symbol that a let declares, or to none. -/
def Attached (table : SymbolTable) (name : Token) : Option Token → Prop
  | none => table.owners.get? name.id = none
  | some declared => ∃ symbol ∈ table.symbols, symbol.definitions = [declared.id] ∧
      name.id ∈ symbol.references ∧ table.owners.get? name.id = some symbol.id

theorem mem_verdicts {blockScoping : Bool} {earlier later : List Site} {site : Site} {name : Token}
    (used : name ∈ site.node.uses) :
    (name, candidate? blockScoping earlier site.home name.text) ∈
      verdicts blockScoping [] (earlier ++ site :: later) := by
  rw [verdicts_append, List.nil_append, verdicts]
  exact List.mem_append_right _ (List.mem_append_left _ (List.mem_map.mpr ⟨name, used, rfl⟩))

theorem attached_of_mem {entries : List Entry} (nodup : (entries.map (·.token.id)).Nodup)
    (known : ∀ entry ∈ entries, ∀ decl ∈ entry.owner,
      (declarations entries)[decl.symbol]? = some decl.token)
    {name : Token} {owner : Option Decl} (member : .referred name owner ∈ entries) :
    Attached (draftOf entries).build name (owner.map (·.token)) := by
  have owned := owners_get? nodup member
  cases owner with
  | none => exact owned
  | some decl =>
    have symbol := symbols_getElem? (known _ member decl rfl)
    refine ⟨_, List.mem_of_getElem? symbol, rfl, ?_, owned⟩
    exact List.mem_mergeSort.mpr (List.mem_filterMap.mpr ⟨_, member, by simp [Entry.use?]⟩)

/-- Names of a text that are reported as undefined are told apart by their ranges. -/
theorem mem_warnings_iff {source : String} {entries : List Entry}
    (nodup : (entries.map (·.token.id)).Nodup)
    (names : ∀ entry ∈ entries,
      entry.token ∈ linesTokens 0 0 (splitLines source.toList) ∧ IsName entry.token)
    {name : Token} {owner : Option Decl} (member : .referred name owner ∈ entries) :
    .warning (undefinedMessage name.text) name.range ∈ warnings entries ↔ owner = none := by
  constructor
  · intro told
    obtain ⟨entry, inside, made⟩ := List.mem_filterMap.mp told
    cases entry with
    | declared decl => cases made
    | referred other found =>
      cases found with
      | some decl => cases made
      | none =>
        have range : other.range = name.range := congrArg Diagnostic.range (Option.some.inj made)
        obtain ⟨inText, isName⟩ := names _ inside
        obtain ⟨alsoInText, alsoName⟩ := names _ member
        have same : other = name :=
          eq_of_start_eq inText alsoInText isName.1 alsoName.1 (congrArg Range.start range)
        have entry := List.inj_on_of_nodup_map nodup inside member (congrArg Token.id same)
        exact (Entry.referred.inj entry).2.symm
  · rintro rfl
    exact List.mem_filterMap.mpr ⟨_, member, rfl⟩

/-- A name that a statement uses stands for the last let before the statement that declares it and,
under block scoping, stands directly in a block around the statement. It is reported exactly if there
is none. -/
theorem resolve_follows_scoping_rule (source : String) (blockScoping : Bool) :
    ∃ table diagnostics,
      resolve (parseTokens (tokenize source)).1 blockScoping = .ok (table, diagnostics) ∧
      (parseTokens (tokenize source)).1.sites.map (·.node) =
        (parseTokens (tokenize source)).1.walk.filter Node.isStatement ∧
      (∀ name ∈ (parseTokens (tokenize source)).1.references,
        ∃ site ∈ (parseTokens (tokenize source)).1.sites, name ∈ site.node.uses) ∧
      ∀ earlier site later, (parseTokens (tokenize source)).1.sites = earlier ++ site :: later →
        ∀ name ∈ site.node.uses,
          Attached table name (candidate? blockScoping earlier site.home name.text) ∧
          (.warning (undefinedMessage name.text) name.range ∈ diagnostics ↔
            candidate? blockScoping earlier site.home name.text = none) := by
  have playable := parseTokens_playable source
  obtain ⟨nodup, names⟩ := ledger_of_text source blockScoping
  have known := ledger_owner Known.start blockScoping (parseTokens (tokenize source)).1.events
  obtain ⟨statements, eof, tree, derived⟩ := parseTokens_statements source
  refine ⟨_, _, resolve_eq playable blockScoping, ?_, ?_, ?_⟩
  · rw [tree]
    exact derived.sites [] 0
  · rw [tree]
    exact fun name member => derived.references [] 0 member
  · intro earlier site later split name used
    have start : Seen blockScoping [] [] 0 .start := ⟨rfl, by simp⟩
    have judged := (derived.plays start).judged
    have sites : Node.sitesOf [] 0 statements = earlier ++ site :: later := by rw [← split, tree]; rfl
    have events : Node.eventsOf statements = (parseTokens (tokenize source)).1.events := by
      rw [tree]; rfl
    rw [sites, events] at judged
    have verdict := @mem_verdicts blockScoping earlier later site name used
    rw [← judged] at verdict
    obtain ⟨entry, member, made⟩ := List.mem_filterMap.mp verdict
    cases entry with
    | declared decl => cases made
    | referred token owner =>
      obtain ⟨rfl, owned⟩ := Prod.mk.inj (Option.some.inj made)
      rw [← owned]
      refine ⟨attached_of_mem nodup known member, ?_⟩
      rw [mem_warnings_iff nodup names member]
      simp

/-- Behind a block a name is the outer one again. -/
theorem resolve_follows_scoping_rule_behind_block :
    let root := (parseTokens (tokenize "let x = 1\nif x\nlet x = 2\nx\nend\nx\n")).1
    ∃ table diagnostics, resolve root true = .ok (table, diagnostics) ∧
      ∃ name ∈ root.references, name.id = 17 ∧
        ∃ symbol ∈ table.symbols, symbol.definitions = [1] ∧ name.id ∈ symbol.references := by
  intro root
  obtain ⟨table, diagnostics, resolved, _, _, rule⟩ := resolve_follows_scoping_rule _ true
  refine ⟨table, diagnostics, resolved, ?_⟩
  have split : root.sites = root.sites.take 4 ++
      root.sites.get ⟨4, by decide +kernel⟩ :: root.sites.drop 5 := by simp
  obtain ⟨name, used, referred, number, candidate⟩ :
      ∃ name ∈ (root.sites.get ⟨4, by decide +kernel⟩).node.uses, name ∈ root.references ∧
        name.id = 17 ∧ (candidate? true (root.sites.take 4)
          (root.sites.get ⟨4, by decide +kernel⟩).home name.text).map (·.id) = some 1 := by
    decide +kernel
  obtain ⟨declared, found, first⟩ := Option.map_eq_some_iff.mp candidate
  have attached := (rule _ _ _ split name used).1
  rw [found] at attached
  obtain ⟨symbol, member, definition, reference, _⟩ := attached
  exact ⟨name, referred, number, symbol, member, by rw [definition, first], reference⟩

end LineScript
