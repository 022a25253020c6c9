import LineScript.Proofs.Acceptance

namespace LineScript

open Grammar

/-- The tokens up to and including the first end of the file. -/
def throughEnd : List Token → List Token
  | [] => []
  | token :: rest => if Parser.isEnd token then [token] else token :: throughEnd rest

theorem throughEnd_append {ahead beyond : List Token} {eof : Token}
    (inner : ∀ token ∈ ahead, token.kind ≠ .endOfFile) (last : eof.kind = .endOfFile) :
    throughEnd (ahead ++ eof :: beyond) = ahead ++ [eof] := by
  induction ahead with
  | nil => simp [throughEnd, Parser.isEnd, last]
  | cons token rest ih =>
    rw [List.forall_mem_cons] at inner
    simp [throughEnd, Parser.isEnd, inner.1, ih inner.2]

namespace Parser

theorem endAfter_kind (tokens : List Token) : (endAfter tokens).kind = .endOfFile := by
  unfold endAfter
  split <;> rfl

theorem ofTokens_sane (tokens : List Token) : (ofTokens tokens).Sane := by
  have inner : ∀ token ∈ tokens.takeWhile (!isEnd ·), token.kind ≠ .endOfFile := by
    intro token member
    simpa [isEnd] using List.all_eq_true.mp List.all_takeWhile token member
  unfold ofTokens
  dsimp only
  split
  · exact ⟨inner, endAfter_kind tokens⟩
  · next eof beyond rest =>
    have stop := List.head?_dropWhile_not (!isEnd ·) tokens
    rw [rest] at stop
    exact ⟨inner, by simpa [isEnd] using stop⟩

theorem throughEnd_ofTokens (tokens : List Token) :
    throughEnd (ofTokens tokens).tokens = (ofTokens tokens).ahead ++ [(ofTokens tokens).eof] := by
  have sane := ofTokens_sane tokens
  have start : (ofTokens tokens).read = [] := by
    unfold ofTokens
    dsimp only
    split <;> rfl
  rw [Parser.tokens, start, remaining]
  exact throughEnd_append sane.inner sane.last

theorem ofTokens_depth (tokens : List Token) : (ofTokens tokens).depth = 0 := by
  unfold ofTokens
  dsimp only
  split <;> rfl

end Parser

/-- Of the tokens `used` all are kept, in their order, but for ends of lines. -/
structure Covers (kept used : List Token) : Prop where
  sublist : kept.Sublist used
  others : kept.filter (·.kind ≠ .endOfLine) = used.filter (·.kind ≠ .endOfLine)

namespace Covers

theorem refl (tokens : List Token) : Covers tokens tokens := ⟨.refl _, rfl⟩

theorem append {kept used more others : List Token} (first : Covers kept used)
    (second : Covers more others) : Covers (kept ++ more) (used ++ others) where
  sublist := first.sublist.append second.sublist
  others := by rw [List.filter_append, List.filter_append, first.others, second.others]

theorem stray {kept used : List Token} {eol : Token} (kind : eol.kind = .endOfLine)
    (rest : Covers kept used) : Covers kept (eol :: used) where
  sublist := rest.sublist.cons _
  others := by simpa [kind] using rest.others

end Covers

namespace Grammar

theorem keptFailures_tokens {complaint : Complaint} {used : List Token} {node : Node}
    (failed : keptFailures complaint used node) : node.tokens = used := by
  obtain ⟨range, rfl⟩ := failed
  rfl

variable {used : List Token} {node : Node}

theorem Expected.tokens {kind : TokenKind} {complaint : Complaint}
    (derived : Expected keptFailures kind complaint used node) : node.tokens = used := by
  cases derived with
  | found => rfl
  | missed failed => exact keptFailures_tokens failed

theorem Atom.tokens (derived : Atom keptFailures used node) : node.tokens = used := by
  cases derived with
  | found => rfl
  | missed failed => exact keptFailures_tokens failed

theorem Expression.tokens (derived : Expression keptFailures used node) : node.tokens = used := by
  cases derived with
  | operand operand => exact operand.tokens
  | binary _ _ right => simp [Node.tokens, right.tokens]
  | call _ _ closing => simp [Node.tokens, closing.tokens]
  | callWith _ _ _ closing => simp [Node.tokens, closing.tokens]

theorem Assigned.tokens {value : Option Token × Node} (derived : Assigned keptFailures used value) :
    value.1.toList ++ value.2.tokens = used := by
  cases derived with
  | found _ value => simp [value.tokens]
  | missed failed => simp [keptFailures_tokens failed]

theorem Simple.tokens (derived : Simple keptFailures used node) : node.tokens = used := by
  cases derived with
  | binding _ _ value terminator => simp [Node.tokens, ← value.tokens, terminator.tokens]
  | expression value terminator => simp [Node.tokens, value.tokens, terminator.tokens]
  | nameless failed => exact keptFailures_tokens failed
  | unexpectedEnd failed => exact keptFailures_tokens failed
  | unreadable failed => exact keptFailures_tokens failed

theorem BlockEnd.tokens (derived : BlockEnd keptFailures used node) : node.tokens = used := by
  cases derived with
  | bare => rfl
  | full => rfl
  | missed failed => exact keptFailures_tokens failed

theorem Statements.covers {depth : Int} {nodes : List Node}
    (derived : Statements keptFailures depth used nodes) : Covers (Node.tokensOf nodes) used := by
  induction derived with
  | nil => exact .refl []
  | stray kind _ ih => exact ih.stray kind
  | simple statement _ ih =>
    rw [Node.tokensOf, statement.tokens]
    exact (Covers.refl _).append ih
  | @block _ _ keyword _ _ _ _ _ _ _ _ _ _ _ _ condition headerEnd _ ending _ ihBody ihAfter =>
    simp only [Node.tokensOf, Node.tokens, condition.tokens, headerEnd.tokens, ending.tokens,
      List.cons_append, List.append_assoc]
    exact (Covers.refl [keyword]).append ((Covers.refl _).append ((Covers.refl _).append
      (ihBody.append ((Covers.refl _).append ihAfter))))
  | tooDeep _ failed _ ih =>
    rw [Node.tokensOf, keptFailures_tokens failed]
    exact (Covers.refl _).append ih

theorem Program.covers (derived : Program keptFailures used node) : Covers node.tokens used := by
  cases derived with
  | mk statements => exact statements.covers.append (.refl _)

end Grammar

theorem parseTokens_covers (tokens : List Token) :
    Covers (parseTokens tokens).1.tokens (throughEnd (Parser.ofTokens tokens).tokens) := by
  rw [Parser.throughEnd_ofTokens]
  exact (Parser.program_reads (Parser.ofTokens_sane tokens) (Parser.ofTokens_depth tokens)).1.covers

end LineScript
