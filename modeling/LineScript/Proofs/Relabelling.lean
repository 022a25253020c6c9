import LineScript.Proofs.Acceptance
import LineScript.Names.Resolution

namespace LineScript

/-- The start of the line of a position. -/
def Position.flat (position : Position) : Position := ⟨position.line, 0⟩

/-- A range without its columns. -/
def Range.flat (range : Range) : Range := ⟨range.start.flat, range.stop.flat⟩

def Diagnostic.flat (diagnostic : Diagnostic) : Diagnostic :=
  { diagnostic with range := diagnostic.range.flat }

/-- A change of tokens that reading does not notice: columns are lost, and ids, kinds, lines and
equals signs are kept. -/
structure Relabelling where
  token : Token → Token
  id (token' : Token) : (token token').id = token'.id
  kind (token' : Token) : (token token').kind = token'.kind
  equals (token' : Token) : Parser.isEqualsSign (token token') = Parser.isEqualsSign token'
  range (token' : Token) : (token token').range = token'.range.flat

namespace Relabelling

variable (view : Relabelling)

mutual

/-- Change the tokens of a tree. -/
def node : Node → Node
  | .leaf token => .leaf (view.token token)
  | .unknown => .unknown
  | .error message range skipped => .error message range.flat (skipped.map view.token)
  | .atomic token => .atomic (view.token token)
  | .binary left operator right => .binary (node left) (view.token operator) (node right)
  | .call callee opening none closing => .call (node callee) (view.token opening) none (node closing)
  | .call callee opening (some argument) closing =>
    .call (node callee) (view.token opening) (some (node argument)) (node closing)
  | .binding form keyword name equals value terminator =>
    .binding form (view.token keyword) (view.token name) (equals.map view.token) (node value)
      (node terminator)
  | .expression value terminator => .expression (node value) (node terminator)
  | .endMarker keyword terminator => .endMarker (view.token keyword) (terminator.map view.token)
  | .block form keyword condition headerEnd body ending =>
    .block form (view.token keyword) (node condition) (node headerEnd) (nodes body) (node ending)
  | .program statements eof => .program (nodes statements) (view.token eof)

def nodes : List Node → List Node
  | [] => []
  | first :: rest => node first :: nodes rest

end

theorem nodes_append (first second : List Node) :
    view.nodes (first ++ second) = view.nodes first ++ view.nodes second := by
  induction first with
  | nil => rfl
  | cons node rest ih => exact congrArg (view.node node :: ·) ih

def parser (parser : Parser) : Parser where
  read := parser.read.map view.token
  ahead := parser.ahead.map view.token
  eof := view.token parser.eof
  beyond := parser.beyond.map view.token
  diagnostics := parser.diagnostics.map Diagnostic.flat
  depth := parser.depth

/-- Change what was read, and the parser behind it. -/
def taken {α : Type} (change : α → α) (read : Taken α) : Taken α :=
  ⟨change read.item, view.parser read.rest⟩

theorem current (parser : Parser) : (view.parser parser).current = view.token parser.current := by
  unfold Parser.current Relabelling.parser
  cases parser.ahead <;> rfl

theorem isAt (parser : Parser) (kind : TokenKind) :
    (view.parser parser).isAt kind = parser.isAt kind := by
  simp only [Parser.isAt, view.current, view.kind]

theorem isAtomic (token : Token) : (view.token token).isAtomic = token.isAtomic := by
  simp only [Token.isAtomic, view.kind]

theorem advance (parser : Parser) : (view.parser parser).advance = view.taken view.token parser.advance := by
  obtain ⟨read, ahead, eof, beyond, diagnostics, depth⟩ := parser
  cases ahead <;> rfl

theorem takeWhile (parser : Parser) (keep : Token → Bool)
    (same : ∀ token, keep (view.token token) = keep token) :
    (view.parser parser).takeWhile keep =
      view.taken (List.map view.token) (parser.takeWhile keep) := by
  have kept : keep ∘ view.token = keep := funext same
  simp [Parser.takeWhile, Relabelling.parser, taken, List.takeWhile_map, List.dropWhile_map, kept]

theorem report (parser : Parser) (message : String) (range : Range) :
    (view.parser parser).report message range.flat = view.parser (parser.report message range) := by
  have seen : (view.parser parser).diagnostics.any (·.range.start.line = range.flat.start.line) =
      parser.diagnostics.any (·.range.start.line = range.start.line) := by
    simp only [Relabelling.parser, List.any_map]
    rfl
  unfold Parser.report
  rw [seen]
  split
  · rfl
  · simp [Relabelling.parser, Diagnostic.flat, Diagnostic.warning]

theorem start (token : Token) : (view.token token).range.start = token.range.start.flat := by
  rw [view.range]
  rfl

theorem rangeOf (tokens : List Token) (position : Position) :
    Parser.rangeOf (tokens.map view.token) position.flat = (Parser.rangeOf tokens position).flat := by
  simp only [Parser.rangeOf, List.head?_map, List.getLast?_map]
  cases tokens.head? with
  | none => rfl
  | some first =>
    cases tokens.getLast? with
    | none => rfl
    | some last => simp [view.range, Range.flat]

theorem fail (parser : Parser) (message : String) (lead skipped : List Token) :
    (view.parser parser).fail message (lead.map view.token) (skipped.map view.token) =
      view.taken view.node (parser.fail message lead skipped) := by
  have passed := view.takeWhile parser (!·.kind.resumes) (fun token => by simp only [view.kind])
  simp only [Parser.fail, passed, taken, view.current, view.start, ← List.map_append, view.rangeOf,
    view.report]
  rfl

theorem complain (parser : Parser) (complaint : Complaint) :
    (view.parser parser).complain complaint = view.taken view.node (parser.complain complaint) :=
  view.fail parser complaint.message [] []

theorem misplaced (parser : Parser) (complaint : Complaint) :
    (view.parser parser).misplaced complaint = view.taken view.node (parser.misplaced complaint) := by
  simp only [Parser.misplaced, view.advance, taken]
  exact view.fail parser.advance.rest complaint.message [] [parser.advance.item]

theorem expect (parser : Parser) (kind : TokenKind) (complaint : Complaint) :
    (view.parser parser).expect kind complaint =
      view.taken view.node (parser.expect kind complaint) := by
  simp only [Parser.expect, view.isAt, view.advance, view.complain]
  split <;> rfl

theorem terminator (parser : Parser) :
    (view.parser parser).terminator = view.taken view.node parser.terminator :=
  view.expect parser _ _

theorem atomic? (parser : Parser) :
    (view.parser parser).atomic? = view.taken (Option.map view.node) parser.atomic? := by
  simp only [Parser.atomic?, view.current, view.isAtomic, view.advance]
  split <;> rfl

theorem operand (parser : Parser) :
    (view.parser parser).operand = view.taken view.node parser.operand := by
  simp only [Parser.operand, view.current, view.isAtomic, view.advance, view.complain]
  split <;> rfl

theorem node_call (callee : Node) (opening : Token) (argument : Option Node) (closing : Node) :
    view.node (.call callee opening argument closing) =
      .call (view.node callee) (view.token opening) (argument.map view.node) (view.node closing) := by
  cases argument <;> rfl

theorem expressionTail (parser : Parser) (left : Node) :
    (view.parser parser).expressionTail (view.node left) =
      view.taken view.node (parser.expressionTail left) := by
  simp only [Parser.expressionTail, view.isAt, view.advance, taken, view.operand, view.atomic?,
    view.expect]
  split
  · rfl
  split
  · simp only [view.node_call]
  · rfl

theorem expression (parser : Parser) :
    (view.parser parser).expression = view.taken view.node parser.expression := by
  simp only [Parser.expression, view.current, view.isAtomic, view.operand, view.complain, taken,
    view.expressionTail]
  split <;> rfl

theorem expressionStatement (parser : Parser) :
    (view.parser parser).expressionStatement = view.taken view.node parser.expressionStatement := by
  simp only [Parser.expressionStatement, view.expression, view.terminator, taken]
  rfl

theorem bindingValue (parser : Parser) :
    (view.parser parser).bindingValue = view.taken
      (fun value => (value.1.map view.token, view.node value.2)) parser.bindingValue := by
  simp only [Parser.bindingValue, view.current, view.equals, view.advance, view.expression,
    view.complain, taken]
  split <;> rfl

theorem binding (parser : Parser) (form : BindingForm) :
    (view.parser parser).binding form = view.taken view.node (parser.binding form) := by
  simp only [Parser.binding, view.advance, taken, view.isAt, view.bindingValue, view.terminator]
  split
  · rfl
  · exact view.fail parser.advance.rest Complaint.expectedName.message [parser.advance.item] []

theorem endMarker (parser : Parser) :
    (view.parser parser).endMarker = view.taken view.node parser.endMarker := by
  simp only [Parser.endMarker, view.advance, taken, view.isAt]
  split <;> rfl

theorem simpleStatement (parser : Parser) :
    (view.parser parser).simpleStatement = view.taken view.node parser.simpleStatement := by
  simp only [Parser.simpleStatement, view.current, view.kind, view.binding, view.misplaced,
    view.expressionStatement]
  split <;> rfl

theorem splitBlock (opened : Nat) (tokens : List Token) :
    Parser.splitBlock opened (tokens.map view.token) =
      ((Parser.splitBlock opened tokens).1.map view.token,
        (Parser.splitBlock opened tokens).2.map view.token) := by
  induction tokens generalizing opened with
  | nil => rfl
  | cons token rest ih =>
    have next : (rest.map view.token).head?.any (·.kind = .endOfLine) =
        rest.head?.any (·.kind = .endOfLine) := by
      cases rest <;> simp [view.kind]
    simp only [List.map_cons, Parser.splitBlock, view.kind, ih, next]
    split
    · rfl
    split
    · cases opened with
      | zero =>
        dsimp only
        split <;> simp [List.map_take]
      | succ opened => rfl
    · rfl

theorem skipBlock (parser : Parser) :
    (view.parser parser).skipBlock = view.taken view.node parser.skipBlock := by
  have split (parser : Parser) := view.splitBlock 0 parser.ahead
  have after (parser : Parser) (first second : List Token) :
      { view.parser parser with
        read := (first.map view.token).reverse ++ (view.parser parser).read
        ahead := second.map view.token } =
      view.parser { parser with read := first.reverse ++ parser.read, ahead := second } := by
    simp [Relabelling.parser]
  have ahead (parser : Parser) : (view.parser parser).ahead = parser.ahead.map view.token := rfl
  simp only [Parser.skipBlock, view.advance, taken, ahead, split, after, view.start,
    ← List.map_cons, view.rangeOf, view.report]
  rfl

def openBlock (block : OpenBlock) : OpenBlock :=
  ⟨block.form, view.token block.keyword, view.node block.condition, view.node block.headerEnd,
    view.nodes block.body⟩

theorem header (parser : Parser) (form : BlockForm) :
    (view.parser parser).header form = view.taken view.openBlock (parser.header form) := by
  simp only [Parser.header, view.advance, view.expression, view.terminator, taken, openBlock]
  rfl

def draft (draft : Draft) : Draft := ⟨draft.opened.map view.openBlock, view.nodes draft.done⟩

theorem draft_add (draft : Draft) (node : Node) :
    (view.draft draft).add (view.node node) = view.draft (draft.add node) := by
  obtain ⟨opened, done⟩ := draft
  have single : view.nodes [node] = [view.node node] := rfl
  cases opened <;>
    simp [Relabelling.draft, Draft.add, openBlock, view.nodes_append, single]

theorem draft_close (draft : Draft) (ending : Node) :
    (view.draft draft).close (view.node ending) = view.draft (draft.close ending) := by
  obtain ⟨opened, done⟩ := draft
  cases opened with
  | nil => rfl
  | cons block outer =>
    have closed : (view.openBlock block).close (view.node ending) = view.node (block.close ending) :=
      rfl
    simp only [Draft.close, ← view.draft_add]
    rw [← closed]
    rfl

def progress (progress : Progress) : Progress :=
  ⟨view.draft progress.draft, view.parser progress.parser⟩

theorem isFull (progress : Progress) : (view.progress progress).isFull = progress.isFull := by
  simp [Progress.isFull, Relabelling.progress, Relabelling.draft, Relabelling.parser]

theorem add (progress : Progress) {read : Parser → Taken Node}
    (same : ∀ parser, read (view.parser parser) = view.taken view.node (read parser)) :
    (view.progress progress).add read = view.progress (progress.add read) := by
  simp only [Progress.add, Relabelling.progress, same, taken, view.draft_add]

theorem enter (progress : Progress) (form : BlockForm) :
    (view.progress progress).enter form = view.progress (progress.enter form) := by
  simp only [Progress.enter, view.isFull, view.add progress view.skipBlock]
  split
  · rfl
  · simp only [Relabelling.progress, view.header, taken]
    rfl

theorem step (progress : Progress) :
    (view.progress progress).step = view.progress progress.step := by
  have current : (view.progress progress).parser.current.kind = progress.parser.current.kind := by
    simp only [Relabelling.progress, view.current, view.kind]
  have opened : (view.progress progress).draft.opened.isEmpty = progress.draft.opened.isEmpty := by
    simp [Relabelling.progress, Relabelling.draft]
  simp only [Progress.step, current, opened, view.enter, view.add progress view.simpleStatement]
  split
  · simp only [Relabelling.progress, view.advance, taken]
  · rfl
  · rfl
  · split
    · rfl
    · simp only [Relabelling.progress, view.endMarker, taken, view.draft_close]
  · rfl

theorem run (single : Bool) (progress : Progress) :
    (view.progress progress).run single = view.progress (progress.run single) := by
  have ahead (progress : Progress) :
      (view.progress progress).parser.ahead = [] ↔ progress.parser.ahead = [] := by
    simp [Relabelling.progress, Relabelling.parser]
  have opened (progress : Progress) :
      (view.progress progress).draft.opened.isEmpty = progress.draft.opened.isEmpty := by
    simp [Relabelling.progress, Relabelling.draft]
  fun_induction Progress.run single progress with
  | case1 progress ended =>
    rw [Progress.run]
    simp [ahead, ended]
  | case2 progress more done =>
    rw [Progress.run]
    simp only [ahead, more, dif_neg, not_false_iff, opened, done, if_pos]
  | case3 progress more busy shorter ih =>
    rw [Progress.run]
    simp only [ahead, more, dif_neg, not_false_iff, opened, busy, view.step, ih]
    rfl

theorem closeAll (opened : Nat) (progress : Progress) :
    (view.progress progress).closeAll opened = view.progress (progress.closeAll opened) := by
  induction opened generalizing progress with
  | zero => rfl
  | succ opened ih =>
    simp only [Progress.closeAll, ← ih]
    simp only [Relabelling.progress, view.complain, taken, view.draft_close]

theorem finish (single : Bool) (progress : Progress) :
    (view.progress progress).finish single = view.progress (progress.finish single) := by
  have length (progress : Progress) :
      (view.progress progress).draft.opened.length = progress.draft.opened.length := by
    simp [Relabelling.progress, Relabelling.draft]
  simp only [Progress.finish, view.run, length, view.closeAll]

/-- Reading changed tokens gives the changed tree. -/
theorem program (parser : Parser) :
    (view.parser parser).program = view.taken view.node parser.program := by
  have start : view.progress ⟨.empty, parser⟩ = ⟨.empty, view.parser parser⟩ := rfl
  simp only [Parser.program, ← start, view.finish]
  simp only [Relabelling.progress, view.current, taken, Relabelling.draft]
  rfl

theorem parseTokens {tokens : List Token} {eof : Token}
    (inner : ∀ token ∈ tokens, token.kind ≠ .endOfFile) (last : eof.kind = .endOfFile) :
    LineScript.parseTokens ((tokens ++ [eof]).map view.token) =
      (view.node (LineScript.parseTokens (tokens ++ [eof])).1,
        (LineScript.parseTokens (tokens ++ [eof])).2.map Diagnostic.flat) := by
  have parser : Parser.ofTokens ((tokens ++ [eof]).map view.token) =
      view.parser (Parser.ofTokens (tokens ++ [eof])) := by
    rw [List.map_append, List.map_singleton, Parser.ofTokens_append_eof inner last,
      Parser.ofTokens_append_eof]
    · rfl
    · simpa [view.kind] using inner
    · rw [view.kind, last]
  simp only [LineScript.parseTokens, parser, view.program, taken]
  rfl

def event : NameEvent → NameEvent
  | .declare token => .declare (view.token token)
  | .refer token => .refer (view.token token)
  | .enter => .enter
  | .leave => .leave
  | .reject label => .reject label

mutual

/-- The names of a changed tree are declared and used as before. -/
theorem events : (node : Node) → (view.node node).events = node.events.map view.event
  | .leaf _ => rfl
  | .unknown => rfl
  | .error _ _ _ => rfl
  | .atomic token => by
    by_cases kind : token.kind = .name <;> simp [Relabelling.node, Node.events, view.kind, kind, event]
  | .binary left _ right => by
    simp [Relabelling.node, Node.events, events left, events right]
  | .call callee _ none _ => by
    simp [Relabelling.node, Node.events, events callee]
  | .call callee _ (some argument) _ => by
    simp [Relabelling.node, Node.events, events callee, events argument]
  | .binding .introduce _ _ _ value _ => by
    simp [Relabelling.node, Node.events, events value, event]
  | .binding .assign _ _ _ value _ => by
    simp [Relabelling.node, Node.events, events value, event]
  | .binding .plain _ _ _ value _ => by
    simp [Relabelling.node, Node.events, events value]
  | .expression value _ => by
    simp [Relabelling.node, Node.events, events value]
  | .endMarker _ _ => rfl
  | .block _ _ condition _ body _ => by
    simp [Relabelling.node, Node.events, events condition, eventsOf body, event]
  | .program statements _ => by
    simp [Relabelling.node, Node.events, eventsOf statements]

theorem eventsOf : (nodes : List Node) →
    Node.eventsOf (view.nodes nodes) = (Node.eventsOf nodes).map view.event
  | [] => rfl
  | node :: rest => by
    simp [Relabelling.nodes, Node.eventsOf, events node, eventsOf rest]

end

end Relabelling

end LineScript
