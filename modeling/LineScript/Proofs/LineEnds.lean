import LineScript.Proofs.Coverage
import LineScript.Proofs.Placement
import LineScript.Text.Blank

namespace LineScript

open Grammar

/-- Whether a line starts behind some tokens, given whether one starts before them. -/
def freshAfter (fresh : Bool) : List Token → Bool
  | [] => fresh
  | token :: rest => freshAfter (token.kind = .endOfLine) rest

/-- Drop the ends of the lines that hold nothing else, given whether a line starts here. -/
def dropStray (fresh : Bool) : List Token → List Token
  | [] => []
  | token :: rest =>
    (if token.kind = .endOfLine ∧ fresh then [] else [token]) ++
      dropStray (token.kind = .endOfLine) rest

theorem freshAfter_append (fresh : Bool) (first second : List Token) :
    freshAfter fresh (first ++ second) = freshAfter (freshAfter fresh first) second := by
  induction first generalizing fresh with
  | nil => rfl
  | cons token rest ih => exact ih _

theorem dropStray_append (fresh : Bool) (first second : List Token) :
    dropStray fresh (first ++ second) =
      dropStray fresh first ++ dropStray (freshAfter fresh first) second := by
  induction first generalizing fresh with
  | nil => rfl
  | cons token rest ih => simp [dropStray, freshAfter, ih]

theorem dropStray_of_inner {tokens : List Token} (inner : ∀ token ∈ tokens, token.kind ≠ .endOfLine)
    (fresh : Bool) : dropStray fresh tokens = tokens := by
  induction tokens generalizing fresh with
  | nil => rfl
  | cons token rest ih =>
    rw [List.forall_mem_cons] at inner
    simp [dropStray, inner.1, ih inner.2]

theorem freshAfter_of_inner {tokens : List Token} (inner : ∀ token ∈ tokens, token.kind ≠ .endOfLine)
    (some : tokens ≠ []) (fresh : Bool) : freshAfter fresh tokens = false := by
  induction tokens generalizing fresh with
  | nil => exact absurd rfl some
  | cons token rest ih =>
    rw [List.forall_mem_cons] at inner
    cases rest with
    | nil => simp [freshAfter, inner.1]
    | cons next rest => exact ih inner.2 (by simp) (decide (token.kind = .endOfLine))

/-- Tokens that fill a line, up to its end. -/
def FillsLine (tokens : List Token) : Prop :=
  ∃ body eol, tokens = body ++ [eol] ∧ body ≠ [] ∧ (∀ token ∈ body, token.kind ≠ .endOfLine) ∧
    eol.kind = .endOfLine

namespace FillsLine

variable {tokens : List Token}

theorem dropStray_eq (fills : FillsLine tokens) (fresh : Bool) : dropStray fresh tokens = tokens := by
  obtain ⟨body, eol, rfl, some, inner, kind⟩ := fills
  simp [dropStray_append, dropStray_of_inner inner, freshAfter_of_inner inner some, dropStray, kind]

theorem freshAfter_eq (fills : FillsLine tokens) (fresh : Bool) :
    freshAfter fresh tokens = true := by
  obtain ⟨body, eol, rfl, some, inner, kind⟩ := fills
  simp [freshAfter_append, freshAfter, kind]

end FillsLine

namespace Grammar

variable {used : List Token} {node : Node}

theorem isAtomic_inner {token : Token} (atomic : token.isAtomic) :
    token.kind ≠ .endOfLine ∧ token.kind ≠ .invalid := by
  constructor <;> intro kind <;> simp [Token.isAtomic, TokenKind.isAtomic, kind] at atomic

/-- An expression of the grammar proper keeps to its line, and all its tokens are of some use. -/
theorem Expression.inner (derived : Expression noFailures used node) :
    ∀ token ∈ used, token.kind ≠ .endOfLine ∧ token.kind ≠ .invalid := by
  cases derived with
  | operand operand =>
    cases operand with
    | found atomic => simpa using isAtomic_inner atomic
    | missed failed => exact failed.elim
  | binary atomic sign right =>
    cases right with
    | found other => simpa [sign] using ⟨isAtomic_inner atomic, isAtomic_inner other⟩
    | missed failed => exact failed.elim
  | call atomic opening closing =>
    cases closing with
    | found closing => simpa [opening, closing] using isAtomic_inner atomic
    | missed failed => exact failed.elim
  | callWith atomic opening argument closing =>
    cases closing with
    | found closing =>
      simpa [opening, closing] using ⟨isAtomic_inner atomic, isAtomic_inner argument⟩
    | missed failed => exact failed.elim

theorem bindingForm?_inner {kind : TokenKind} {form : BindingForm}
    (opens : bindingForm? kind = some form) : kind ≠ .endOfLine ∧ kind ≠ .invalid := by
  constructor <;> rintro rfl <;> cases opens

theorem blockForm?_inner {kind : TokenKind} {form : BlockForm}
    (opens : blockForm? kind = some form) : kind ≠ .endOfLine ∧ kind ≠ .invalid := by
  constructor <;> rintro rfl <;> cases opens

/-- A statement of the grammar proper that is no block is one line. -/
theorem Simple.fills (derived : Simple noFailures used node) :
    FillsLine used ∧ ∀ token ∈ used, token.kind ≠ .invalid := by
  cases derived with
  | @binding form keyword name inValue value after terminator opens named assigned closed =>
    obtain ⟨eol, rfl, rfl, kind⟩ := Parser.exists_eol closed
    cases assigned with
    | @found equals inExpression value sign expression =>
      have first := bindingForm?_inner opens
      have inner := expression.inner
      have operator : equals.kind = .operator := by simp_all [Parser.isEqualsSign]
      refine ⟨⟨keyword :: name :: equals :: inExpression, eol, rfl, by simp, ?_, kind⟩, ?_⟩
      · simpa [first, named, operator] using fun token member => (inner token member).1
      · simp only [List.mem_cons, List.mem_append, List.not_mem_nil, or_false]
        rintro token (rfl | rfl | (rfl | member) | rfl)
        · exact first.2
        · simp [named]
        · simp [operator]
        · exact (inner token member).2
        · simp [kind]
    | missed failed => exact failed.elim
  | expression value closed =>
    obtain ⟨eol, rfl, rfl, kind⟩ := Parser.exists_eol closed
    obtain ⟨first, more, rfl, atomic⟩ := Parser.exists_atomic value
    have inner := value.inner
    refine ⟨⟨_, eol, rfl, by simp, fun token member => (inner token member).1, kind⟩, ?_⟩
    intro token member
    rcases List.mem_append.mp member with inside | last
    · exact (inner token inside).2
    · simp [List.mem_singleton.mp last, kind]
  | nameless failed => exact failed.elim
  | unexpectedEnd failed => exact failed.elim
  | unreadable failed => exact failed.elim

/-- So is the header of a block. -/
theorem header_fills {keyword : Token} {form : BlockForm} {condition headerEnd : Node}
    {inCondition inHeader : List Token} (opens : blockForm? keyword.kind = some form)
    (test : Expression noFailures inCondition condition)
    (closed : Terminator noFailures inHeader headerEnd) :
    FillsLine (keyword :: (inCondition ++ inHeader)) := by
  obtain ⟨eol, rfl, rfl, kind⟩ := Parser.exists_eol closed
  refine ⟨keyword :: inCondition, eol, rfl, by simp, ?_, kind⟩
  exact List.forall_mem_cons.mpr
    ⟨(blockForm?_inner opens).1, fun token member => (test.inner token member).1⟩

end Grammar

theorem Node.tokensOf_append (first second : List Node) :
    tokensOf (first ++ second) = tokensOf first ++ tokensOf second := by
  induction first with
  | nil => rfl
  | cons node rest ih => simp [tokensOf, ih]

namespace Draft

/-- The tokens of all that is read so far. -/
def tokens (draft : Draft) : List Token := Node.tokensOf draft.parts

theorem tokens_add (draft : Draft) (node : Node) :
    (draft.add node).tokens = draft.tokens ++ node.tokens := by
  simp [tokens, parts_add, Node.tokensOf_append, Node.tokensOf]

theorem tokens_enter (draft : Draft) (form : BlockForm) (keyword : Token)
    (condition headerEnd : Node) :
    (draft.enter ⟨form, keyword, condition, headerEnd, []⟩).tokens =
      draft.tokens ++ keyword :: (condition.tokens ++ headerEnd.tokens) := by
  simp [tokens, parts_enter, OpenBlock.parts, Node.tokensOf_append, Node.tokensOf, Node.tokens]

theorem tokens_close {draft : Draft} {block : OpenBlock} {outer : List OpenBlock}
    (opened : draft.opened = block :: outer) (ending : Node) :
    (draft.close ending).tokens = draft.tokens ++ ending.tokens := by
  obtain ⟨outside, closed, inside⟩ := parts_close opened ending
  have whole : draft.tokens ++ ending.tokens = Node.tokensOf (draft.parts ++ [ending]) := by
    simp [tokens, Node.tokensOf_append, Node.tokensOf]
  rw [whole, inside, tokens, closed]
  simp [OpenBlock.close, Node.children, Node.tokensOf_append, Node.tokensOf, Node.tokens]

end Draft

namespace Progress

/-- All tokens read are in the draft but for ends of lines with nothing before them, and the next
token is not the end of a line that has something before it. -/
structure Tidy (used : List Token) (progress : Progress) : Prop where
  kept : progress.draft.tokens = dropStray true used
  fresh : progress.parser.current.kind = .endOfLine → freshAfter true used = true

variable {before after : Progress} {used more : List Token} {errors : List Node}

theorem Tidy.fill (tidy : Tidy used before) (fills : FillsLine more)
    (tokens : after.draft.tokens = before.draft.tokens ++ more) : Tidy (used ++ more) after where
  kept := by rw [tokens, tidy.kept, dropStray_append, fills.dropStray_eq]
  fresh _ := by rw [freshAfter_append, fills.freshAfter_eq]

/-- Moves that meet no problem keep things tidy. -/
theorem Move.tidy (move : Move keptFailures before more errors after) (clean : errors = [])
    (tidy : Tidy used before) : Tidy (used ++ more) after := by
  cases move with
  | stray here kind =>
    refine ⟨?_, fun _ => by simp [freshAfter_append, freshAfter, kind]⟩
    have fresh := tidy.fresh (by rw [here, kind])
    simpa [dropStray_append, dropStray, fresh, kind] using tidy.kept
  | simple statement =>
    exact tidy.fill (statement.strict clean).fills.1 (by rw [Draft.tokens_add, statement.tokens])
  | tooDeep _ failed => exact absurd clean (keptFailures_errors failed)
  | enter _ opens test header =>
    obtain ⟨inCondition, inHeader⟩ := List.append_eq_nil_iff.mp clean
    refine tidy.fill (header_fills opens (test.strict inCondition) (header.strict inHeader)) ?_
    rw [Draft.tokens_enter, test.tokens, header.tokens]
  | leave opened ending greedy =>
    have tokens := Draft.tokens_close opened
    cases ending.strict clean with
    | bare keyword =>
      refine ⟨?_, fun eol => absurd eol (greedy rfl)⟩
      simp [tokens, Node.tokens, tidy.kept, dropStray_append, dropStray, keyword]
    | @full keyword eol word kind =>
      have fills : FillsLine [keyword, eol] := ⟨[keyword], eol, rfl, by simp, by simp [word], kind⟩
      exact tidy.fill fills (tokens _)
    | missed failed => exact failed.elim

theorem run_tidy (progress : Progress) (sane : progress.parser.Sane) (tidy : Tidy used progress)
    (clean : (progress.run false).draft.errors = []) :
    Tidy (used ++ progress.parser.ahead) (progress.run false) := by
  fun_induction run false progress generalizing used with
  | case1 progress ended => rwa [ended, List.append_nil]
  | case2 progress more done => simp at done
  | case3 progress more busy shorter ih =>
    obtain ⟨taken, errors, reads, move⟩ := step_moves sane more
    obtain ⟨_, later⟩ := run_grows false progress.step (reads.sane sane)
    obtain ⟨others, _, told⟩ := later.reads
    have quiet : progress.step.draft.errors = [] := by
      rw [told] at clean
      exact (List.append_eq_nil_iff.mp clean).1
    rw [move.told] at quiet
    rw [reads.ahead, ← List.append_assoc]
    exact ih (reads.sane sane) (move.tidy (List.append_eq_nil_iff.mp quiet).2 tidy) clean

/-- A block that is still open at the end of the file is a problem. -/
theorem closeAll_errors_ne_nil {opened : Nat} (progress : Progress) (sane : progress.parser.Sane)
    (length : progress.draft.opened.length = opened + 1) (ended : progress.parser.ahead = []) :
    (closeAll (opened + 1) progress).draft.errors ≠ [] := by
  obtain ⟨used, reads, failed⟩ := Parser.complain_reads sane .expectedEnd rfl
  have nothing : used = [] ∧ (progress.parser.complain .expectedEnd).rest.ahead = [] := by
    simpa [ended] using reads.ahead.symm
  obtain ⟨block, outer, cons⟩ := List.exists_cons_of_length_eq_add_one length
  obtain ⟨errors, _, told⟩ := (closeAll_grows ⟨progress.draft.close _, _⟩ (reads.sane sane)
    (opened_close_length length _) nothing.2).1.reads
  rw [closeAll, told, Draft.errors_close cons]
  simp [keptFailures_errors failed]

theorem finish_tidy (progress : Progress) (sane : progress.parser.Sane) (tidy : Tidy [] progress)
    (clean : (progress.finish false).draft.errors = []) :
    (progress.finish false).draft.tokens = dropStray true progress.parser.ahead := by
  have ended := progress.run_ahead
  unfold finish at clean ⊢
  cases opened : (progress.run false).draft.opened.length with
  | zero =>
    simp only [opened, closeAll] at clean ⊢
    exact (progress.run_tidy sane tidy clean).kept
  | succ count =>
    simp only [opened] at clean
    obtain ⟨_, run⟩ := progress.run_grows false sane
    exact absurd clean (closeAll_errors_ne_nil _ (run.sane sane) opened ended)

end Progress

theorem Parser.program_tokens {parser : Parser} (sane : parser.Sane)
    (clean : parser.program.item.errors = []) :
    parser.program.item.tokens = dropStray true parser.ahead ++ [parser.eof] := by
  obtain ⟨grows, ended, closed⟩ := Progress.finish_grows ⟨.empty, parser⟩ sane
  obtain ⟨_, reads, _⟩ := grows.reads
  have parts : (Progress.finish false ⟨.empty, parser⟩).draft.parts =
      (Progress.finish false ⟨.empty, parser⟩).draft.done := by
    simp [Draft.parts, closed]
  have tokens := Progress.finish_tidy ⟨.empty, parser⟩ sane ⟨rfl, fun _ => rfl⟩
    (by simpa [Draft.errors, parts, program] using clean)
  rw [Draft.tokens, parts] at tokens
  simp [program, Node.tokens, tokens, current, ended, reads.eof]

/-- A program of the grammar proper has no characters in it that are of no use. -/
theorem Grammar.Statements.readable {depth : Int} {used : List Token} {nodes : List Node}
    (derived : Statements noFailures depth used nodes) :
    ∀ token ∈ used, token.kind ≠ .invalid := by
  induction derived with
  | nil => simp
  | stray kind _ ih => simpa [kind] using ih
  | simple statement _ ih =>
    intro token member
    rcases List.mem_append.mp member with here | later
    · exact statement.fills.2 token here
    · exact ih token later
  | block _ opens test closed _ ending _ ihBody ihAfter =>
    obtain ⟨eol, rfl, rfl, kind⟩ := Parser.exists_eol closed
    intro token member
    simp only [List.mem_cons, List.mem_append, List.not_mem_nil, or_false] at member
    rcases member with rfl | inCondition | rfl | inBody | inEnding | later
    · exact (blockForm?_inner opens).2
    · exact (test.inner token inCondition).2
    · simp [kind]
    · exact ihBody token inBody
    · cases ending with
      | bare word => simp_all
      | full word eol => rcases List.mem_cons.mp inEnding with rfl | last <;> simp_all
      | missed failed => exact failed.elim
    · exact ihAfter token later
  | tooDeep _ failed => exact failed.elim

theorem toNat_of_isBlank {c : Char} (blank : isBlank c) : c.toNat ≤ 32 ∨ 133 ≤ c.toNat := by
  simp only [isBlank, Bool.or_eq_true, Bool.and_eq_true, decide_eq_true_eq, beq_iff_eq] at blank
  omega

theorem isBlank_of_isSpace {c : Char} (space : isSpace c) : isBlank c := by
  have same : c = ' ' := by simpa [isSpace] using space
  rw [same]
  decide

/-- No token that is of any use starts with a blank. -/
theorem Admitted.invalid_of_isBlank {kind : TokenKind} {c : Char} {more next : List Char}
    (admitted : Admitted kind (c :: more) next) (blank : isBlank c) : kind = .invalid := by
  have range := toNat_of_isBlank blank
  generalize text : c :: more = whole at admitted
  cases admitted with
  | integer signs some run =>
    obtain ⟨d, rest, rfl⟩ := List.exists_cons_of_ne_nil some
    rcases signs with rfl | rfl | rfl
    · obtain ⟨rfl, _⟩ := List.cons.inj text
      have digit : 48 ≤ c.toNat ∧ c.toNat ≤ 57 := Char.isDigit_iff_toNat.mp (run c List.mem_cons_self)
      omega
    · obtain ⟨rfl, _⟩ := List.cons.inj text
      exact absurd blank (by decide)
    · obtain ⟨rfl, _⟩ := List.cons.inj text
      exact absurd blank (by decide)
  | word start =>
    obtain ⟨rfl, _⟩ := List.cons.inj text
    rcases isNameStart_iff_toNat.mp start with upper | lower | rfl
    · omega
    · omega
    · exact absurd blank (by decide)
  | leftParen =>
    obtain ⟨rfl, _⟩ := List.cons.inj text
    exact absurd blank (by decide)
  | rightParen =>
    obtain ⟨rfl, _⟩ := List.cons.inj text
    exact absurd blank (by decide)
  | operator some run =>
    subst text
    have sign := run c List.mem_cons_self
    simp only [isOperatorChar, List.mem_cons, List.not_mem_nil, or_false, decide_eq_true_eq] at sign
    rcases sign with rfl | rfl | rfl | rfl | rfl | rfl | rfl | rfl | rfl | rfl | rfl <;>
      exact absurd blank (by decide)
  | invalid => rfl

/-- A line that has only tokens of some use has none at all exactly if it is blank. -/
theorem scanLine_eq_nil_iff {line : List Char}
    (readable : ∀ lexeme ∈ (scanLine line).1, lexeme.kind ≠ .invalid) :
    (scanLine line).1 = [] ↔ line.all isBlank := by
  obtain ⟨lawful, spell⟩ := scanLine_lawful line
  rw [List.all_eq_true]
  cases lexemes : (scanLine line).1 with
  | nil =>
    rw [lexemes] at lawful spell
    have trail : (scanLine line).2 = line := spell
    rw [trail] at lawful
    simpa using fun c member => isBlank_of_isSpace (lawful c member)
  | cons lexeme rest =>
    rw [lexemes] at lawful spell readable
    obtain ⟨c, more, text, _⟩ := lawful.2.1.starts
    have member : c ∈ spelled (lexeme :: rest) (scanLine line).2 := by simp [spelled, text]
    rw [spell] at member
    refine ⟨by simp, fun blank => absurd ?_ (readable lexeme List.mem_cons_self)⟩
    exact (text ▸ lawful.2.1).invalid_of_isBlank (blank c member)

theorem exists_mem_placeLexemes {lexemes : List Lexeme} {lexeme : Lexeme} (member : lexeme ∈ lexemes)
    (row id column : Nat) : ∃ token ∈ placeLexemes row id column lexemes, token.kind = lexeme.kind := by
  rw [← placeLexemes_lexemes row id column lexemes] at member
  obtain ⟨token, placed, rfl⟩ := List.mem_map.mp member
  exact ⟨token, placed, rfl⟩

/-- Of the tokens of a line the end is stray exactly if the line is blank. -/
theorem dropStray_lineTokens {id row : Nat} {line : List Char}
    (readable : ∀ token ∈ lineTokens id row line, token.kind ≠ .invalid) :
    dropStray true (lineTokens id row line) =
        (lineTokens id row line).filter (fun token => !(token.kind = .endOfLine && line.all isBlank)) ∧
      freshAfter true (lineTokens id row line) = true := by
  cases line with
  | nil => exact ⟨rfl, rfl⟩
  | cons c more =>
    simp only [lineTokens] at readable ⊢
    have inner : ∀ token ∈ placeLexemes row id 0 (scanLine (c :: more)).1,
        token.kind ≠ .endOfLine := by
      intro token member
      obtain ⟨_, _, lexeme, inside, kind, _⟩ := mem_placeLexemes member [] [] rfl
      obtain ⟨next, admitted⟩ := (scanLine_lawful _).1.admitted inside
      exact kind ▸ admitted.inner.1
    have empty := @scanLine_eq_nil_iff (c :: more) (by
      intro lexeme member
      obtain ⟨token, placed, kind⟩ := exists_mem_placeLexemes member row id 0
      exact kind ▸ readable token (List.mem_append_left _ placed))
    by_cases none : (scanLine (c :: more)).1 = []
    · simp only [none, empty.mp none]
      exact ⟨rfl, rfl⟩
    · have solid : (c :: more).all isBlank = false := Bool.eq_false_iff.mpr (none ∘ empty.mpr)
      have some : placeLexemes row id 0 (scanLine (c :: more)).1 ≠ [] := by
        simpa [← List.length_eq_zero_iff, placeLexemes_length] using none
      have fills (eol : Token) (kind : eol.kind = .endOfLine) :
          FillsLine (placeLexemes row id 0 (scanLine (c :: more)).1 ++ [eol]) :=
        ⟨_, eol, rfl, some, inner, kind⟩
      rw [(fills _ rfl).dropStray_eq, (fills _ rfl).freshAfter_eq, solid]
      exact ⟨(List.filter_eq_self.mpr (by simp)).symm, rfl⟩

/-- Of the tokens of some lines, just the ends of the blank ones are stray. -/
theorem dropStray_linesTokens {id row : Nat} {lines : List (List Char)}
    (readable : ∀ token ∈ linesTokens id row lines, token.kind ≠ .invalid) (blank : Int → Bool)
    (told : ∀ place line, lines[place]? = some line → blank (row + place : Nat) = line.all isBlank) :
    dropStray true (linesTokens id row lines) = (linesTokens id row lines).filter
      (fun token => !(token.kind = .endOfLine && blank token.line)) := by
  induction lines generalizing id row with
  | nil => rfl
  | cons line rest ih =>
    rw [linesTokens, List.forall_mem_append] at readable
    obtain ⟨here, fresh⟩ := dropStray_lineTokens readable.1
    have later := ih readable.2 (fun place line found => by
      rw [Nat.add_right_comm, Nat.add_assoc]
      exact told (place + 1) line found)
    rw [linesTokens, dropStray_append, fresh, later, here, List.filter_append]
    congr 1
    apply List.filter_congr
    intro token member
    have place : token.line = row := (mem_lineTokens member).1.line.1
    have same : blank row = line.all isBlank := told 0 line rfl
    rw [place, same]

/-- Whether a token is the end of a line of white space. -/
def endsBlankLine (source : String) (token : Token) : Bool :=
  token.kind = .endOfLine && (linesOf source)[token.line.toNat]?.any (·.toList.all isBlank)

theorem dropStray_tokenize {source : String}
    (readable : ∀ token ∈ linesTokens 0 0 (splitLines source.toList), token.kind ≠ .invalid) :
    dropStray true (linesTokens 0 0 (splitLines source.toList)) =
      (linesTokens 0 0 (splitLines source.toList)).filter (!endsBlankLine source ·) := by
  apply dropStray_linesTokens readable
    (fun place => (linesOf source)[place.toNat]?.any (·.toList.all isBlank))
  intro place line found
  simp [linesOf, found]

theorem parseTokens_tokens_of_silent {source : String}
    (silent : (parseTokens (tokenize source)).2 = []) :
    (parseTokens (tokenize source)).1.tokens =
      (tokenize source).filter (!endsBlankLine source ·) := by
  obtain ⟨eof, last, tokens⟩ := tokenize_eq source
  have inner := @linesTokens_inner 0 0 (splitLines source.toList)
  have sane := Parser.sane_of_append_eof inner last
  rw [tokens] at silent ⊢
  simp only [parseTokens, Parser.ofTokens_append_eof inner last] at sane silent ⊢
  have clean := (Parser.program_diagnostics_eq_nil sane rfl rfl).mp silent
  obtain ⟨_, derived, _⟩ := ((Parser.program_reads sane rfl).1.strict clean).statements
  rw [Parser.program_tokens sane clean, dropStray_tokenize derived.readable, List.filter_append]
  simp [endsBlankLine, last]

/-- The tree of a token list keeps every token but ends of lines, once and in order. Where nothing is
wrong with the shape of a text, its tree lacks the ends of blank lines only. -/
theorem parseTokens_keeps_tokens :
    (∀ tokens, (parseTokens tokens).1.tokens.Sublist (throughEnd (Parser.ofTokens tokens).tokens) ∧
      (parseTokens tokens).1.tokens.filter (·.kind ≠ .endOfLine) =
        (throughEnd (Parser.ofTokens tokens).tokens).filter (·.kind ≠ .endOfLine)) ∧
    ∀ source, (parseTokens (tokenize source)).2 = [] →
      (parseTokens (tokenize source)).1.tokens =
        (tokenize source).filter (!endsBlankLine source ·) := by
  refine ⟨fun tokens => ?_, fun source silent => parseTokens_tokens_of_silent silent⟩
  have covers := parseTokens_covers tokens
  exact ⟨covers.sublist, covers.others⟩

/-- A blank line between two statements. -/
theorem parseTokens_keeps_tokens_around_blank_line :
    (parseTokens (tokenize "let x = 1\n  \nx\n")).2 = [] ∧
      (parseTokens (tokenize "let x = 1\n  \nx\n")).1.tokens.map (·.id) = [0, 1, 2, 3, 4, 6, 7, 8] := by
  have silent : (parseTokens (tokenize "let x = 1\n  \nx\n")).2 = [] := by decide +kernel
  rw [parseTokens_keeps_tokens.2 _ silent]
  exact ⟨silent, by decide +kernel⟩

end LineScript
