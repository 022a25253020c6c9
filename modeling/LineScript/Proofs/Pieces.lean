import LineScript.Proofs.Naming

namespace LineScript

/-- How tokens make name events and problems, piece by piece. A declaration comes from a `let` and the
name right behind it, and a problem keeps the tokens that it comes from. -/
inductive Yields : List Token → List NameEvent → List Node → Prop
  | nil : Yields [] [] []
  | append {used more events others problems wrongs} : Yields used events problems →
      Yields more others wrongs → Yields (used ++ more) (events ++ others) (problems ++ wrongs)
  | perm {used events others problems} : Yields used events problems → events.Perm others →
      Yields used others problems
  | silent {event : NameEvent} : event.token? = none → Yields [] [event] []
  | other {token : Token} : token.kind ∉ [.name, .letWord] → Yields [token] [] []
  | refer {token : Token} : token.kind = .name → Yields [token] [.refer token] []
  | declare {keyword name : Token} : keyword.kind = .letWord → name.kind = .name →
      Yields [keyword, name] [.declare name] []
  | lost {message range used} : Yields used [] [.error message range used]

namespace Grammar

variable {used : List Token} {node : Node}

theorem keptFailures_yields {complaint : Complaint} (failed : keptFailures complaint used node) :
    Yields used [] node.errors := by
  obtain ⟨range, rfl⟩ := failed
  exact .lost

theorem Expected.yields {kind : TokenKind} {complaint : Complaint}
    (derived : Expected keptFailures kind complaint used node)
    (unnamed : kind ∉ [.name, .letWord]) : Yields used [] node.errors := by
  cases derived with
  | found here => exact .other (here ▸ unnamed)
  | missed failed => exact keptFailures_yields failed

theorem Terminator.yields (derived : Terminator keptFailures used node) :
    Yields used [] node.errors :=
  Expected.yields derived (by decide)

theorem atomic_yields {token : Token} (atomic : token.isAtomic) :
    Yields [token] (Node.atomic token).events [] := by
  by_cases name : token.kind = .name
  · simpa [Node.events, name] using .refer name
  · have word : token.kind ≠ .letWord := by
      intro word
      simp [Token.isAtomic, TokenKind.isAtomic, word] at atomic
    simpa [Node.events, name] using .other (by simp [name, word])

theorem Atom.yields (derived : Atom keptFailures used node) : Yields used node.events node.errors := by
  cases derived with
  | found atomic => exact atomic_yields atomic
  | missed failed =>
    rw [(keptFailures_silent failed).1]
    exact keptFailures_yields failed

theorem Expression.yields (derived : Expression keptFailures used node) :
    Yields used node.events node.errors := by
  cases derived with
  | operand operand => exact operand.yields
  | @binary _ operator _ _ atomic kind operand =>
    have sign : Yields [operator] [] [] := .other (by simp [kind])
    simpa [Node.events] using (atomic_yields atomic).append (sign.append operand.yields)
  | @call _ opening _ _ atomic kind closed =>
    have paren : Yields [opening] [] [] := .other (by simp [kind])
    have closing := closed.yields (by decide)
    simpa [Node.events] using (atomic_yields atomic).append (paren.append closing)
  | @callWith _ opening _ _ _ atomic kind given closed =>
    have paren : Yields [opening] [] [] := .other (by simp [kind])
    have closing := closed.yields (by decide)
    simpa [Node.events] using
      (atomic_yields atomic).append (paren.append ((atomic_yields given).append closing))

theorem Assigned.yields {value : Option Token × Node} (derived : Assigned keptFailures used value) :
    Yields used value.2.events value.2.errors := by
  cases derived with
  | @found equals _ _ here value =>
    have kind := (of_decide_eq_true here).1
    have sign : Yields [equals] [] [] := .other (by simp [kind])
    exact sign.append value.yields
  | missed failed =>
    rw [(keptFailures_silent failed).1]
    exact keptFailures_yields failed

theorem Simple.yields (derived : Simple keptFailures used node) :
    Yields used node.events node.errors := by
  have lost {complaint : Complaint} (failed : keptFailures complaint used node) :
      Yields used node.events node.errors := by
    rw [(keptFailures_silent failed).1]
    exact keptFailures_yields failed
  cases derived with
  | @binding form keyword name inValue value after terminator opens named assigned closed =>
    have rest := assigned.yields.append closed.yields
    rw [List.append_nil] at rest
    -- The value is used before the name, but stands behind it.
    have whole {event : NameEvent} (head : Yields [keyword, name] [event] []) :=
      (head.append rest).perm (List.perm_append_singleton event value.2.events).symm
    rw [Node.errors_binding]
    cases kind : keyword.kind <;> simp only [kind, bindingForm?, reduceCtorEq, Option.some.injEq] at opens
    · subst opens
      exact whole (.declare kind named)
    · subst opens
      have word : Yields [keyword] [] [] := .other (by simp [kind])
      exact whole (word.append (.refer named))
  | expression value closed => simpa [Node.events] using value.yields.append closed.yields
  | nameless failed => exact lost failed
  | unexpectedEnd failed => exact lost failed
  | unreadable failed => exact lost failed

theorem BlockEnd.yields (derived : BlockEnd keptFailures used node) : Yields used [] node.errors := by
  cases derived with
  | bare word => exact .other (by simp [word])
  | @full keyword eol word line =>
    have first : Yields [keyword] [] [] := .other (by simp [word])
    exact first.append (.other (by simp [line]))
  | missed failed => exact keptFailures_yields failed

theorem Statements.yields {depth : Int} {nodes : List Node}
    (derived : Statements keptFailures depth used nodes) :
    Yields used (Node.eventsOf nodes) (Node.errorsOf nodes) := by
  induction derived with
  | nil => exact .nil
  | @stray _ eol _ _ kind _ ih =>
    have line : Yields [eol] [] [] := .other (by simp [kind])
    exact line.append ih
  | simple statement _ ih =>
    rw [Node.eventsOf, Node.errorsOf_cons]
    exact statement.yields.append ih
  | @block _ _ keyword _ _ _ _ _ _ _ _ _ _ _ opens test closed _ ending _ ihBody ihAfter =>
    have kind : keyword.kind ∉ [.name, .letWord] := by
      intro either
      rcases List.mem_pair.mp either with kind | kind <;> simp [kind, blockForm?] at opens
    have word : Yields [keyword] [] [] := .other kind
    have enter : Yields [] [.enter] [] := .silent rfl
    have leave : Yields [] [.leave] [] := .silent rfl
    have body := enter.append (ihBody.append (leave.append ending.yields))
    simpa [Node.eventsOf, Node.events] using
      word.append (test.yields.append (closed.yields.append (body.append ihAfter)))
  | tooDeep _ failed _ ih =>
    rw [Node.eventsOf, (keptFailures_silent failed).1, Node.errorsOf_cons]
    exact (keptFailures_yields failed).append ih

end Grammar

/-- What the tokens of a text yield is all that is in its tree. -/
theorem parseTokens_yields (source : String) :
    Yields (linesTokens 0 0 (splitLines source.toList)) (parseTokens (tokenize source)).1.events
      (parseTokens (tokenize source)).1.errors := by
  obtain ⟨statements, eof, tree, derived⟩ := parseTokens_statements source
  rw [tree, Node.events, Node.errors_program]
  exact derived.yields

end LineScript
