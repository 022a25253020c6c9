import LineScript.Parsing.Progress

namespace LineScript

/-- The binding that a keyword starts. -/
def bindingForm? : TokenKind → Option BindingForm
  | .letWord => some .introduce
  | .setWord => some .assign
  | _ => none

/-- The block that a keyword starts. -/
def blockForm? : TokenKind → Option BlockForm
  | .ifWord => some .conditional
  | .whileWord => some .loop
  | _ => none

namespace Grammar

/-- What may stand for a construct that could not be read, with the tokens that it takes. -/
abbrev Failures := Complaint → List Token → Node → Prop

/-- The grammar proper: nothing may stand for a construct but the construct. -/
def noFailures : Failures := fun _ _ _ => False

/-- Any tokens may be lost to a failed construct, as long as its node keeps them. -/
def keptFailures : Failures := fun complaint used node =>
  ∃ range, node = .error complaint.message range used

/-- A single token of the wanted kind. -/
inductive Expected (failed : Failures) (kind : TokenKind) (complaint : Complaint) :
    List Token → Node → Prop
  | found {token} : token.kind = kind → Expected failed kind complaint [token] (.leaf token)
  | missed {used node} : failed complaint used node → Expected failed kind complaint used node

abbrev Terminator (failed : Failures) : List Token → Node → Prop :=
  Expected failed .endOfLine .expectedEndOfLine

/-- An integer or a name. -/
inductive Atom (failed : Failures) : List Token → Node → Prop
  | found {token} : token.isAtomic → Atom failed [token] (.atomic token)
  | missed {used node} : failed .expectedExpression used node → Atom failed used node

/-- One operand, two with an operator between them, or a call with at most one argument. -/
inductive Expression (failed : Failures) : List Token → Node → Prop
  | operand {used node} : Atom failed used node → Expression failed used node
  | binary {left operator used right} : left.isAtomic → operator.kind = .operator →
      Atom failed used right →
      Expression failed (left :: operator :: used) (.binary (.atomic left) operator right)
  | call {callee opening used closing} : callee.isAtomic → opening.kind = .leftParen →
      Expected failed .rightParen .expectedRightParen used closing →
      Expression failed (callee :: opening :: used) (.call (.atomic callee) opening none closing)
  | callWith {callee opening argument used closing} : callee.isAtomic →
      opening.kind = .leftParen → argument.isAtomic →
      Expected failed .rightParen .expectedRightParen used closing →
      Expression failed (callee :: opening :: argument :: used)
        (.call (.atomic callee) opening (some (.atomic argument)) closing)

/-- An equals sign and the value behind it. -/
inductive Assigned (failed : Failures) : List Token → Option Token × Node → Prop
  | found {equals used value} : Parser.isEqualsSign equals → Expression failed used value →
      Assigned failed (equals :: used) (some equals, value)
  | missed {used value} : failed .expectedEquals used value → Assigned failed used (none, value)

/-- A statement that is no block. -/
inductive Simple (failed : Failures) : List Token → Node → Prop
  | binding {form keyword name used value after terminator} :
      bindingForm? keyword.kind = some form → name.kind = .name →
      Assigned failed used value → Terminator failed after terminator →
      Simple failed (keyword :: name :: (used ++ after))
        (.binding form keyword name value.1 value.2 terminator)
  | expression {used value after terminator} :
      Expression failed used value → Terminator failed after terminator →
      Simple failed (used ++ after) (.expression value terminator)
  | nameless {used node} : failed .expectedName used node → Simple failed used node
  | unexpectedEnd {used node} : failed .unexpectedEnd used node → Simple failed used node
  | unreadable {used node} : failed .expectedStatement used node → Simple failed used node

/-- The end of a block. The end of its line belongs to it if it is there. -/
inductive BlockEnd (failed : Failures) : List Token → Node → Prop
  | bare {keyword} : keyword.kind = .endWord → BlockEnd failed [keyword] (.endMarker keyword none)
  | full {keyword eol} : keyword.kind = .endWord → eol.kind = .endOfLine →
      BlockEnd failed [keyword, eol] (.endMarker keyword (some eol))
  | missed {used node} : failed .expectedEnd used node → BlockEnd failed used node

/-- Statements inside `depth` blocks. An end of line may stand before each of them and behind the
last one. -/
inductive Statements (failed : Failures) : Int → List Token → List Node → Prop
  | nil {depth} : Statements failed depth [] []
  | stray {depth eol used nodes} : eol.kind = .endOfLine → Statements failed depth used nodes →
      Statements failed depth (eol :: used) nodes
  | simple {depth used node after nodes} : Simple failed used node →
      Statements failed depth after nodes → Statements failed depth (used ++ after) (node :: nodes)
  | block {depth form keyword condition headerEnd body ending after nodes}
      {inCondition inHeader inBody inEnding : List Token} :
      depth < maxNesting → blockForm? keyword.kind = some form →
      Expression failed inCondition condition → Terminator failed inHeader headerEnd →
      Statements failed (depth + 1) inBody body → BlockEnd failed inEnding ending →
      Statements failed depth after nodes →
      Statements failed depth
        (keyword :: (inCondition ++ (inHeader ++ (inBody ++ (inEnding ++ after)))))
        (.block form keyword condition headerEnd body ending :: nodes)
  | tooDeep {depth used node after nodes} : maxNesting ≤ depth →
      failed .nestedTooDeeply used node → Statements failed depth after nodes →
      Statements failed depth (used ++ after) (node :: nodes)

/-- A whole program, with the end of the file. -/
inductive Program (failed : Failures) : List Token → Node → Prop
  | mk {used statements eof} : Statements failed 0 used statements → eof.kind = .endOfFile →
      Program failed (used ++ [eof]) (.program statements eof)

theorem Statements.append {failed : Failures} {depth : Int} {used more : List Token}
    {nodes others : List Node} (first : Statements failed depth used nodes)
    (second : Statements failed depth more others) :
    Statements failed depth (used ++ more) (nodes ++ others) := by
  induction first with
  | nil => exact second
  | stray kind _ ih => exact .stray kind (ih second)
  | simple statement _ ih =>
    rw [List.append_assoc]
    exact .simple statement (ih second)
  | block within form condition headerEnd body ending _ _ ih =>
    simp only [List.cons_append, List.append_assoc]
    exact .block within form condition headerEnd body ending (ih second)
  | tooDeep deep node _ ih =>
    rw [List.append_assoc]
    exact .tooDeep deep node (ih second)

theorem Program.statements {failed : Failures} {tokens : List Token} {eof : Token} {tree : Node}
    (derived : Program failed (tokens ++ [eof]) tree) :
    ∃ statements, Statements failed 0 tokens statements ∧ tree = .program statements eof ∧
      eof.kind = .endOfFile := by
  generalize whole : tokens ++ [eof] = used at derived
  cases derived with
  | mk statements last =>
    obtain ⟨rfl, same⟩ := List.append_inj' whole rfl
    cases same
    exact ⟨_, statements, rfl, last⟩

end Grammar

end LineScript
