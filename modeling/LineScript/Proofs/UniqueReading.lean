import LineScript.Proofs.Rebuilding

namespace LineScript

def AsciiDigit (c : Char) : Prop := '0' ≤ c ∧ c ≤ '9'

def IdentifierStart (c : Char) : Prop := 'A' ≤ c ∧ c ≤ 'Z' ∨ 'a' ≤ c ∧ c ≤ 'z' ∨ c = '_'

def IdentifierChar (c : Char) : Prop := IdentifierStart c ∨ AsciiDigit c

def OperatorSign (c : Char) : Prop := c ∈ "-+*/%<>=!&|".toList

/-- A character of the class comes first in the text. -/
def Leads (holds : Char → Prop) (text : List Char) : Prop := ∃ c rest, text = c :: rest ∧ holds c

def IntegerText (text : List Char) : Prop :=
  ∃ sign digits, text = sign ++ digits ∧ (sign = [] ∨ sign = ['+'] ∨ sign = ['-']) ∧ digits ≠ [] ∧
    ∀ c ∈ digits, AsciiDigit c

def IdentifierText (text : List Char) : Prop :=
  ∃ c more, text = c :: more ∧ IdentifierStart c ∧ ∀ d ∈ more, IdentifierChar d

/-- The keywords and their kinds. -/
def keywordKinds : List (List Char × TokenKind) :=
  [("let".toList, .letWord), ("set".toList, .setWord), ("end".toList, .endWord),
    ("if".toList, .ifWord), ("while".toList, .whileWord)]

/-- Whether a token of some kind may have the characters `text`, when `next` follows it on its line. -/
def Conforms (kind : TokenKind) (text next : List Char) : Prop :=
  match kind with
  | .integer => IntegerText text ∧ ¬ Leads AsciiDigit next
  | .name | .letWord | .setWord | .endWord | .ifWord | .whileWord =>
    IdentifierText text ∧ ¬ Leads IdentifierChar next ∧
      ∀ keyword ∈ keywordKinds, kind = keyword.2 ↔ text = keyword.1
  | .leftParen => text = ['(']
  | .rightParen => text = [')']
  | .operator => text ≠ [] ∧ (∀ c ∈ text, OperatorSign c) ∧ ¬ Leads OperatorSign next ∧
      ¬ ((text = ['+'] ∨ text = ['-']) ∧ Leads AsciiDigit next)
  | .invalid => ∃ c, text = [c] ∧ c ≠ ' ' ∧ ¬ AsciiDigit c ∧ ¬ IdentifierStart c ∧ c ≠ '(' ∧
      c ≠ ')' ∧ ¬ OperatorSign c
  | .endOfLine | .endOfFile => False

/-- A way to read a line: lexemes, each with the spaces before it, and the spaces at the end. -/
def ConformingLine : List Lexeme → List Char → Prop
  | [], trail => ∀ c ∈ trail, c = ' '
  | lexeme :: rest, trail => (∀ c ∈ lexeme.gap, c = ' ') ∧ ' ' ∉ lexeme.text ∧
      Conforms lexeme.kind lexeme.text (spelled rest trail) ∧ ConformingLine rest trail

theorem isDigit_iff_asciiDigit {c : Char} : c.isDigit ↔ AsciiDigit c := by
  rw [Char.isDigit_iff_toNat, AsciiDigit, Char.le_def, Char.le_def, UInt32.le_iff_toNat_le,
    UInt32.le_iff_toNat_le]
  exact Iff.rfl

theorem isNameStart_iff_identifierStart {c : Char} : isNameStart c ↔ IdentifierStart c := by
  rw [isNameStart_iff_toNat, IdentifierStart]
  simp only [Char.le_def, UInt32.le_iff_toNat_le]
  exact Iff.rfl

theorem isNameChar_iff_identifierChar {c : Char} : isNameChar c ↔ IdentifierChar c := by
  rw [isNameChar, Bool.or_eq_true, isNameStart_iff_identifierStart, isDigit_iff_asciiDigit,
    IdentifierChar]

theorem isOperatorChar_iff_operatorSign {c : Char} : isOperatorChar c ↔ OperatorSign c :=
  decide_eq_true_iff

theorem startsWith_iff_leads {holds : Char → Bool} {law : Char → Prop} (same : ∀ {c}, holds c ↔ law c)
    {text : List Char} : startsWith holds text ↔ Leads law text := by
  cases text with
  | nil => simp [startsWith, Leads]
  | cons c rest => simp [startsWith, Leads, same]

theorem startsWith_eq_false_iff {holds : Char → Bool} {law : Char → Prop}
    (same : ∀ {c}, holds c ↔ law c) {text : List Char} :
    startsWith holds text = false ↔ ¬ Leads law text := by
  rw [← startsWith_iff_leads same, Bool.not_eq_true]

theorem ofWord_eq_iff {word : List Char} {keyword : List Char × TokenKind}
    (listed : keyword ∈ keywordKinds) :
    TokenKind.ofWord (String.ofList word) = keyword.2 ↔ word = keyword.1 := by
  have table : ∀ keyword ∈ keywordKinds, TokenKind.ofWord (String.ofList keyword.1) = keyword.2 ∧
      keyword.2.keyword? = some (String.ofList keyword.1) := by decide
  obtain ⟨kind, spell⟩ := table keyword listed
  constructor
  · intro read
    rcases TokenKind.ofWord_cases (String.ofList word) with name | own
    · simp [← read, name, TokenKind.keyword?] at spell
    · rw [read, spell] at own
      exact (String.ofList_injective (Option.some.inj own)).symm
  · rintro rfl
    exact kind

/-- The kinds that words have. -/
def wordKinds : List TokenKind := .name :: keywordKinds.map (·.2)

theorem ofWord_mem_wordKinds (word : String) : TokenKind.ofWord word ∈ wordKinds := by
  rcases TokenKind.ofWord_cases word with name | own
  · simp [name, wordKinds]
  · cases kind : TokenKind.ofWord word <;> simp_all [wordKinds, keywordKinds, TokenKind.keyword?]

/-- The kind of a word is settled by which keyword it is, if any. -/
theorem ofWord_eq_of_kinds {kind : TokenKind} {text : List Char} (word : kind ∈ wordKinds)
    (kinds : ∀ keyword ∈ keywordKinds, kind = keyword.2 ↔ text = keyword.1) :
    TokenKind.ofWord (String.ofList text) = kind := by
  rcases List.mem_cons.mp word with rfl | listed
  · rcases List.mem_cons.mp (ofWord_mem_wordKinds (String.ofList text)) with name | listed
    · exact name
    · obtain ⟨keyword, inside, read⟩ := List.mem_map.mp listed
      have text := (ofWord_eq_iff inside).mp read.symm
      rw [← read, (kinds keyword inside).mpr text]
  · obtain ⟨keyword, inside, rfl⟩ := List.mem_map.mp listed
    exact (ofWord_eq_iff inside).mpr ((kinds keyword inside).mp rfl)

theorem conforms_word_iff {kind : TokenKind} (word : kind ∈ wordKinds) {text next : List Char} :
    Conforms kind text next ↔ IdentifierText text ∧ ¬ Leads IdentifierChar next ∧
      ∀ keyword ∈ keywordKinds, kind = keyword.2 ↔ text = keyword.1 := by
  simp only [wordKinds, keywordKinds, List.map_cons, List.map_nil, List.mem_cons,
    List.not_mem_nil, or_false] at word
  rcases word with rfl | rfl | rfl | rfl | rfl | rfl <;> rfl

theorem Admitted.conforms {kind : TokenKind} {text next : List Char}
    (admitted : Admitted kind text next) : Conforms kind text next := by
  cases admitted with
  | integer signs some run stop =>
    exact ⟨⟨_, _, rfl, signs, some, fun c member => isDigit_iff_asciiDigit.mp (run c member)⟩,
      (startsWith_eq_false_iff isDigit_iff_asciiDigit).mp stop⟩
  | @word c more _ start run stop =>
    refine (conforms_word_iff (ofWord_mem_wordKinds _)).mpr
      ⟨⟨c, more, rfl, isNameStart_iff_identifierStart.mp start, ?_⟩, ?_, ?_⟩
    · exact fun d member => isNameChar_iff_identifierChar.mp (run d member)
    · exact (startsWith_eq_false_iff isNameChar_iff_identifierChar).mp stop
    · exact fun keyword listed => ofWord_eq_iff listed
  | leftParen => rfl
  | rightParen => rfl
  | operator some run stop alone =>
    refine ⟨some, fun c member => isOperatorChar_iff_operatorSign.mp (run c member), ?_, ?_⟩
    · exact (startsWith_eq_false_iff isOperatorChar_iff_operatorSign).mp stop
    · rwa [← startsWith_iff_leads isDigit_iff_asciiDigit]
  | invalid space digit start opening closing sign =>
    rw [isDigit_iff_asciiDigit] at digit
    rw [isNameStart_iff_identifierStart] at start
    rw [isOperatorChar_iff_operatorSign] at sign
    exact ⟨_, rfl, by simpa [isSpace] using space, digit, start, opening, closing, sign⟩

theorem admitted_of_word {kind : TokenKind} (word : kind ∈ wordKinds) {text next : List Char}
    (conforms : Conforms kind text next) : Admitted kind text next := by
  obtain ⟨⟨c, more, rfl, start, run⟩, stop, kinds⟩ := (conforms_word_iff word).mp conforms
  rw [← ofWord_eq_of_kinds word kinds]
  exact .word (isNameStart_iff_identifierStart.mpr start)
    (fun d member => isNameChar_iff_identifierChar.mpr (run d member))
    ((startsWith_eq_false_iff isNameChar_iff_identifierChar).mpr stop)

/-- The rules, said kind by kind, are those that the scanner keeps to. -/
theorem admitted_iff_conforms {kind : TokenKind} {text next : List Char} :
    Admitted kind text next ↔ Conforms kind text next := by
  refine ⟨Admitted.conforms, fun conforms => ?_⟩
  by_cases word : kind ∈ wordKinds
  · exact admitted_of_word word conforms
  cases kind with
  | integer =>
    obtain ⟨⟨sign, digits, rfl, signs, some, run⟩, stop⟩ := conforms
    exact .integer signs some (fun c member => isDigit_iff_asciiDigit.mpr (run c member))
      ((startsWith_eq_false_iff isDigit_iff_asciiDigit).mpr stop)
  | leftParen =>
    obtain rfl : text = ['('] := conforms
    exact .leftParen
  | rightParen =>
    obtain rfl : text = [')'] := conforms
    exact .rightParen
  | operator =>
    obtain ⟨some, run, stop, alone⟩ := conforms
    rw [← startsWith_iff_leads isDigit_iff_asciiDigit] at alone
    exact .operator some (fun c member => isOperatorChar_iff_operatorSign.mpr (run c member))
      ((startsWith_eq_false_iff isOperatorChar_iff_operatorSign).mpr stop) alone
  | invalid =>
    obtain ⟨c, rfl, space, digit, start, opening, closing, sign⟩ := conforms
    rw [← isDigit_iff_asciiDigit] at digit
    rw [← isNameStart_iff_identifierStart] at start
    rw [← isOperatorChar_iff_operatorSign] at sign
    exact .invalid (by simpa [isSpace] using space) digit start opening closing sign
  | endOfLine => exact conforms.elim
  | endOfFile => exact conforms.elim
  | name | letWord | setWord | endWord | ifWord | whileWord => exact absurd (by decide) word

/-- No token has a space in it. -/
theorem Admitted.spaceless {kind : TokenKind} {text next : List Char}
    (admitted : Admitted kind text next) : ' ' ∉ text := by
  cases admitted with
  | integer signs some run =>
    rintro (inside : _ ∈ _ ++ _)
    rcases List.mem_append.mp inside with sign | digit
    · rcases signs with rfl | rfl | rfl <;> simp at sign
    · exact absurd (run _ digit) (by decide)
  | word start run =>
    intro inside
    rcases List.mem_cons.mp inside with rfl | later
    · exact absurd start (by decide)
    · exact absurd (run _ later) (by decide)
  | leftParen => decide
  | rightParen => decide
  | operator some run => exact fun inside => absurd (run _ inside) (by decide)
  | invalid space => simpa [isSpace, eq_comm] using space

theorem conformingLine_iff_lawful {lexemes : List Lexeme} {trail : List Char} :
    ConformingLine lexemes trail ↔ Lawful lexemes trail := by
  have spaces (text : List Char) : (∀ c ∈ text, c = ' ') ↔ ∀ c ∈ text, isSpace c := by simp [isSpace]
  induction lexemes with
  | nil => exact spaces trail
  | cons lexeme rest ih =>
    rw [ConformingLine, Lawful, spaces, ← admitted_iff_conforms]
    constructor
    · rintro ⟨gap, _, admitted, later⟩
      exact ⟨gap, admitted, ih.mp later⟩
    · rintro ⟨gap, admitted, later⟩
      exact ⟨gap, admitted.spaceless, admitted, ih.mpr later⟩

/-- Of all ways to cut a line into spaces and tokens just one keeps to the lexical rules, and that is
how the line is read. -/
theorem tokenize_reads_only_way {source line : String} {row : Nat}
    (found : (linesOf source)[row]? = some line) (filled : line ≠ "") :
    ∃ body eol, onLine row (tokenize source) = body ++ [eol] ∧ eol.kind = .endOfLine ∧
      (∀ token ∈ body, token.kind ≠ .endOfLine) ∧ ∀ lexemes trail,
        ConformingLine lexemes trail ∧ spelled lexemes trail = line.toList ↔
          lexemes = body.map Token.lexeme ∧ trail = eol.gap.toList := by
  obtain ⟨chars, split, rfl⟩ : ∃ chars, (splitLines source.toList)[row]? = some chars ∧
      String.ofList chars = line := by
    simpa [linesOf] using found
  obtain ⟨body, eol, here, kind, _, read, rest⟩ :=
    exists_onLine_tokenize split (by rintro rfl; exact filled rfl)
  refine ⟨body, eol, here, kind, ?_, ?_⟩
  · intro token member
    have lawful := (scanLine_lawful chars).1
    rw [← read] at lawful
    obtain ⟨next, admitted⟩ := lawful.admitted (List.mem_map_of_mem member)
    exact admitted.inner.1
  · intro lexemes trail
    rw [conformingLine_iff_lawful, String.toList_ofList, ← scanLine_eq_iff, read, rest,
      ← Prod.mk.injEq, eq_comm]

/-- A sign before a digit belongs to the integer, unless it is in a longer operator. -/
theorem tokenize_reads_only_way_among_signs :
    (linesOf "x\r\n==-1 -2x(é \n")[1]? = some "==-1 -2x(é " ∧ ∀ lexemes trail,
      ConformingLine lexemes trail ∧ spelled lexemes trail = "==-1 -2x(é ".toList ↔
        lexemes = [⟨[], .operator, ['=', '=', '-']⟩, ⟨[], .integer, ['1']⟩, ⟨[' '], .integer, ['-', '2']⟩,
          ⟨[], .name, ['x']⟩, ⟨[], .leftParen, ['(']⟩, ⟨[], .invalid, ['é']⟩] ∧ trail = [' '] := by
  have found : (linesOf "x\r\n==-1 -2x(é \n")[1]? = some "==-1 -2x(é " := by decide +kernel
  have tokens : (onLine 1 (tokenize "x\r\n==-1 -2x(é \n")).map Token.lexeme =
      [⟨[], .operator, ['=', '=', '-']⟩, ⟨[], .integer, ['1']⟩, ⟨[' '], .integer, ['-', '2']⟩,
        ⟨[], .name, ['x']⟩, ⟨[], .leftParen, ['(']⟩, ⟨[], .invalid, ['é']⟩] ++
        [⟨[' '], .endOfLine, []⟩] := by decide +kernel
  obtain ⟨body, eol, here, _, _, only⟩ := tokenize_reads_only_way found (by decide)
  rw [show onLine 1 _ = body ++ [eol] from here, List.map_append] at tokens
  obtain ⟨read, last⟩ := List.append_inj' tokens rfl
  have trail : eol.gap.toList = [' '] := congrArg Lexeme.gap (List.singleton_inj.mp last)
  rw [read, trail] at only
  exact ⟨found, only⟩

end LineScript
