import LineScript.Source.Lexeme
import Mathlib.Data.List.TakeWhile

namespace LineScript

/-- Whether a text starts with a character of a class. -/
def startsWith (holds : Char → Bool) (text : List Char) : Bool := text.head?.any holds

/-- The lexical rules: what the characters of a token of some kind may be, given what follows. -/
inductive Admitted : TokenKind → List Char → List Char → Prop
  | integer {sign digits next} : sign = [] ∨ sign = ['+'] ∨ sign = ['-'] → digits ≠ [] →
      (∀ c ∈ digits, c.isDigit) → startsWith Char.isDigit next = false →
      Admitted .integer (sign ++ digits) next
  | word {c more next} : isNameStart c → (∀ d ∈ more, isNameChar d) →
      startsWith isNameChar next = false →
      Admitted (.ofWord (String.ofList (c :: more))) (c :: more) next
  | leftParen {next} : Admitted .leftParen ['('] next
  | rightParen {next} : Admitted .rightParen [')'] next
  | operator {text next} : text ≠ [] → (∀ c ∈ text, isOperatorChar c) →
      startsWith isOperatorChar next = false →
      ¬ ((text = ['+'] ∨ text = ['-']) ∧ startsWith Char.isDigit next) →
      Admitted .operator text next
  | invalid {c next} : ¬ isSpace c → ¬ c.isDigit → ¬ isNameStart c → c ≠ '(' → c ≠ ')' →
      ¬ isOperatorChar c → Admitted .invalid [c] next

/-- The characters of a line, written out from its lexemes and the spaces at its end. -/
def spelled : List Lexeme → List Char → List Char
  | [], trail => trail
  | lexeme :: rest, trail => lexeme.gap ++ (lexeme.text ++ spelled rest trail)

/-- Lexemes, with the spaces at the end of their line, that obey the lexical rules. -/
def Lawful : List Lexeme → List Char → Prop
  | [], trail => ∀ c ∈ trail, isSpace c
  | lexeme :: rest, trail => (∀ c ∈ lexeme.gap, isSpace c) ∧
      Admitted lexeme.kind lexeme.text (spelled rest trail) ∧ Lawful rest trail

theorem takeWhile_run {holds : Char → Bool} {text next : List Char} (run : ∀ c ∈ text, holds c)
    (stop : startsWith holds next = false) : (text ++ next).takeWhile holds = text := by
  rw [List.takeWhile_append_of_pos run]
  cases next with
  | nil => simp
  | cons c rest => simp_all [startsWith]

theorem dropWhile_run {holds : Char → Bool} {text next : List Char} (run : ∀ c ∈ text, holds c)
    (stop : startsWith holds next = false) : (text ++ next).dropWhile holds = next := by
  rw [List.dropWhile_append_of_pos run]
  cases next with
  | nil => simp
  | cons c rest => simp_all [startsWith]

theorem startsWith_dropWhile (holds : Char → Bool) (text : List Char) :
    startsWith holds (text.dropWhile holds) = false := by
  have stop := List.head?_dropWhile_not holds text
  unfold startsWith
  split at stop
  · next c head => simpa [head] using stop
  · next head => simp [head]

theorem isNameStart_iff_toNat {c : Char} : isNameStart c ↔
    65 ≤ c.toNat ∧ c.toNat ≤ 90 ∨ 97 ≤ c.toNat ∧ c.toNat ≤ 122 ∨ c = '_' := by
  have upper : c.isUpper = decide (65 ≤ c.val ∧ c.val ≤ 90) := rfl
  have lower : c.isLower = (decide (97 ≤ c.val) && decide (c.val ≤ 122)) := rfl
  have alpha : c.isAlpha = (c.isUpper || c.isLower) := rfl
  simp [isNameStart, alpha, upper, lower, UInt32.le_iff_toNat_le, or_assoc]

theorem isDigit_of_isNameStart {c : Char} (start : isNameStart c) : c.isDigit = false := by
  rw [Bool.eq_false_iff]
  intro digit
  have lower : 48 ≤ c.toNat ∧ c.toNat ≤ 57 := Char.isDigit_iff_toNat.mp digit
  rcases isNameStart_iff_toNat.mp start with upper | small | rfl
  · omega
  · omega
  · exact absurd digit (by decide)

theorem isOperatorChar_cases {c : Char} (sign : isOperatorChar c) :
    c.isDigit = false ∧ isNameStart c = false ∧ c ≠ '(' ∧ c ≠ ')' := by
  simp only [isOperatorChar, List.mem_cons, List.not_mem_nil, or_false, decide_eq_true_eq] at sign
  rcases sign with rfl | rfl | rfl | rfl | rfl | rfl | rfl | rfl | rfl | rfl | rfl <;> decide

theorem isSignOf_iff {c : Char} {rest : List Char} :
    isSignOf c rest ↔ (c = '+' ∨ c = '-') ∧ startsWith Char.isDigit rest := by
  simp [isSignOf, startsWith]

theorem isSignOf_eq_false {c : Char} {rest : List Char} (other : ¬ isOperatorChar c) :
    isSignOf c rest = false := by
  rw [Bool.eq_false_iff]
  intro sign
  rcases (isSignOf_iff.mp sign).1 with rfl | rfl
  · exact other (by decide)
  · exact other (by decide)

/-- A token that the rules admit is the one that is read there. -/
theorem scanToken_of_admitted {kind : TokenKind} {c : Char} {more next : List Char}
    (admitted : Admitted kind (c :: more) next) :
    scanToken c (more ++ next) = (kind, c :: more, next) := by
  generalize text : c :: more = whole at admitted
  cases admitted with
  | @integer sign digits next signs some run stop =>
    obtain ⟨d, rest, rfl⟩ := List.exists_cons_of_ne_nil some
    rw [List.forall_mem_cons] at run
    rcases signs with rfl | signed
    · obtain ⟨rfl, rfl⟩ := List.cons.inj text
      simp [scanToken, run.1, takeWhile_run run.2 stop, dropWhile_run run.2 stop]
    · obtain ⟨rfl, rfl⟩ : sign = [c] ∧ more = d :: rest := by
        rcases signed with rfl | rfl <;> simp_all
      have sign : isSignOf c (d :: rest ++ next) := by
        rw [isSignOf_iff]
        exact ⟨by simpa using signed, by simpa [startsWith] using run.1⟩
      have digits : ∀ e ∈ d :: rest, e.isDigit := List.forall_mem_cons.mpr run
      rw [scanToken, if_pos (by simp only [sign, Bool.or_true]), takeWhile_run digits stop,
        dropWhile_run digits stop]
      rfl
  | @word c more next start run stop =>
    obtain ⟨rfl, rfl⟩ := List.cons.inj text
    have digit := isDigit_of_isNameStart start
    have sign : isSignOf c (more ++ next) = false := by
      apply isSignOf_eq_false
      intro sign
      simp [(isOperatorChar_cases sign).2.1] at start
    simp [scanToken, digit, sign, start, takeWhile_run run stop, dropWhile_run run stop]
  | leftParen =>
    obtain ⟨rfl, rfl⟩ := List.cons.inj text
    rfl
  | rightParen =>
    obtain ⟨rfl, rfl⟩ := List.cons.inj text
    rfl
  | operator some run stop alone =>
    subst text
    rw [List.forall_mem_cons] at run
    obtain ⟨digit, start, opening, closing⟩ := isOperatorChar_cases run.1
    have sign : isSignOf c (more ++ next) = false := by
      rw [Bool.eq_false_iff]
      intro signed
      obtain ⟨sign, follows⟩ := isSignOf_iff.mp signed
      cases more with
      | nil => exact alone ⟨by simpa using sign, follows⟩
      | cons d rest =>
        have next := (isOperatorChar_cases (run.2 d List.mem_cons_self)).1
        simp [startsWith, next] at follows
    simp [scanToken, digit, sign, start, opening, closing, run.1, takeWhile_run run.2 stop,
      dropWhile_run run.2 stop]
  | invalid space digit start opening closing sign =>
    obtain ⟨rfl, rfl⟩ := List.cons.inj text
    simp [scanToken, digit, start, opening, closing, sign, isSignOf_eq_false sign]

/-- What is read as a token is admitted by the rules, and nothing is lost with it. -/
theorem scanToken_admitted {c : Char} (space : ¬ isSpace c) (rest : List Char) :
    Admitted (scanToken c rest).1 (scanToken c rest).2.1 (scanToken c rest).2.2 ∧
      c :: rest = (scanToken c rest).2.1 ++ (scanToken c rest).2.2 := by
  have run (holds : Char → Bool) : ∀ d ∈ rest.takeWhile holds, holds d :=
    fun d member => List.all_eq_true.mp List.all_takeWhile d member
  have whole (holds : Char → Bool) :
      c :: rest = (c :: rest.takeWhile holds) ++ rest.dropWhile holds := by
    rw [List.cons_append, List.takeWhile_append_dropWhile]
  have stop (holds : Char → Bool) := startsWith_dropWhile holds rest
  unfold scanToken
  split
  · next number =>
    refine ⟨?_, whole _⟩
    rcases Bool.or_eq_true_iff.mp number with digit | sign
    · exact .integer (.inl rfl) (by simp) (List.forall_mem_cons.mpr ⟨digit, run _⟩) (stop _)
    · obtain ⟨sign, follows⟩ := isSignOf_iff.mp sign
      show Admitted .integer ([c] ++ rest.takeWhile Char.isDigit) _
      refine .integer (.inr (by simpa using sign)) ?_ (run _) (stop _)
      cases rest with
      | nil => simp [startsWith] at follows
      | cons d rest =>
        have digit : d.isDigit := by simpa [startsWith] using follows
        simp [digit]
  split
  · next start => exact ⟨.word start (run _) (stop _), whole _⟩
  split
  · next opening => exact ⟨opening ▸ .leftParen, rfl⟩
  split
  · next closing => exact ⟨closing ▸ .rightParen, rfl⟩
  split
  · next number _ _ _ sign =>
    refine ⟨.operator (by simp) (List.forall_mem_cons.mpr ⟨sign, run _⟩) (stop _) ?_, whole _⟩
    rintro ⟨alone, follows⟩
    have single : rest.takeWhile isOperatorChar = [] ∧ (c = '+' ∨ c = '-') := by
      rcases alone with alone | alone <;> simp_all
    have all : rest.dropWhile isOperatorChar = rest := by
      have parts := List.takeWhile_append_dropWhile (p := isOperatorChar) (l := rest)
      rwa [single.1, List.nil_append] at parts
    rw [all] at follows
    exact number (Bool.or_eq_true_iff.mpr (.inr (isSignOf_iff.mpr ⟨single.2, follows⟩)))
  · next number start opening closing sign =>
    have digit : ¬ c.isDigit := fun digit => number (Bool.or_eq_true_iff.mpr (.inl digit))
    exact ⟨.invalid space digit start opening closing sign, rfl⟩

theorem scanLine_of_spaces {line : List Char} (spaces : line.dropWhile isSpace = []) :
    scanLine line = ([], line) := by
  have all : line.takeWhile isSpace = line := by
    have parts := List.takeWhile_append_dropWhile (p := isSpace) (l := line)
    rwa [spaces, List.append_nil] at parts
  rw [scanLine]
  split
  · rw [all]
  · next found => simp [spaces] at found

theorem scanLine_of_token {line rest : List Char} {c : Char}
    (found : line.dropWhile isSpace = c :: rest) :
    scanLine line =
      (⟨line.takeWhile isSpace, (scanToken c rest).1, (scanToken c rest).2.1⟩ ::
        (scanLine (scanToken c rest).2.2).1, (scanLine (scanToken c rest).2.2).2) := by
  rw [scanLine]
  split
  · next empty => simp [found] at empty
  · next d other here =>
    obtain ⟨rfl, rfl⟩ := List.cons.inj (found.symm.trans here)
    rfl

theorem not_isSpace_of_class {holds : Char → Bool} (space : holds ' ' = false) {c : Char}
    (member : holds c) : ¬ isSpace c := by
  intro blank
  have same : c = ' ' := by simpa [isSpace] using blank
  simp [same, space] at member

/-- A token starts with a character that is no space. -/
theorem Admitted.starts {kind : TokenKind} {text next : List Char}
    (admitted : Admitted kind text next) : ∃ c more, text = c :: more ∧ ¬ isSpace c := by
  cases admitted with
  | integer signs some run =>
    obtain ⟨d, rest, rfl⟩ := List.exists_cons_of_ne_nil some
    rcases signs with rfl | rfl | rfl
    · exact ⟨d, rest, rfl, not_isSpace_of_class (by decide) (run d List.mem_cons_self)⟩
    · exact ⟨_, _, rfl, by decide⟩
    · exact ⟨_, _, rfl, by decide⟩
  | word start => exact ⟨_, _, rfl, not_isSpace_of_class (by decide) start⟩
  | leftParen => exact ⟨_, _, rfl, by decide⟩
  | rightParen => exact ⟨_, _, rfl, by decide⟩
  | operator some run =>
    obtain ⟨c, rest, rfl⟩ := List.exists_cons_of_ne_nil some
    exact ⟨c, rest, rfl, not_isSpace_of_class (by decide) (run c List.mem_cons_self)⟩
  | invalid space => exact ⟨_, _, rfl, space⟩

/-- The classes of characters that may not follow some token directly. -/
def gluing : List (Char → Bool) := [Char.isDigit, isNameChar, isOperatorChar]

/-- What follows a token matters by the classes that it does not start with. -/
theorem Admitted.of_stops {kind : TokenKind} {text next other : List Char}
    (admitted : Admitted kind text next) (stops : ∀ holds ∈ gluing,
      startsWith holds next = false → startsWith holds other = false) :
    Admitted kind text other := by
  obtain ⟨digits, names, signs⟩ : (startsWith Char.isDigit next = false →
      startsWith Char.isDigit other = false) ∧ (startsWith isNameChar next = false →
      startsWith isNameChar other = false) ∧ (startsWith isOperatorChar next = false →
      startsWith isOperatorChar other = false) := by
    simpa [gluing] using stops
  cases admitted with
  | integer signs some run stop => exact .integer signs some run (digits stop)
  | word start run stop => exact .word start run (names stop)
  | leftParen => exact .leftParen
  | rightParen => exact .rightParen
  | operator some run stop alone =>
    refine .operator some run (signs stop) fun ⟨sign, digit⟩ => ?_
    have free : startsWith Char.isDigit next = false := by
      rw [Bool.eq_false_iff]
      exact fun follows => alone ⟨sign, follows⟩
    rw [digits free] at digit
    cases digit
  | invalid space digit start opening closing sign =>
    exact .invalid space digit start opening closing sign

/-- The lexemes of a line obey the rules, and the line can be written out from them. -/
theorem scanLine_lawful (line : List Char) :
    Lawful (scanLine line).1 (scanLine line).2 ∧
      spelled (scanLine line).1 (scanLine line).2 = line := by
  have run : ∀ c ∈ line.takeWhile isSpace, isSpace c :=
    fun c member => List.all_eq_true.mp List.all_takeWhile c member
  cases found : line.dropWhile isSpace with
  | nil =>
    rw [scanLine_of_spaces found]
    exact ⟨fun c member => List.dropWhile_eq_nil_iff.mp found c member, rfl⟩
  | cons c rest =>
    have space : ¬ isSpace c := by
      have stop := startsWith_dropWhile isSpace line
      simpa [found, startsWith] using stop
    have shorter := Nat.lt_of_le_of_lt (scanToken_rest_length_le c rest)
      (rest_length_lt_of_dropWhile found)
    obtain ⟨admitted, whole⟩ := scanToken_admitted space rest
    obtain ⟨lawful, spell⟩ := scanLine_lawful (scanToken c rest).2.2
    rw [scanLine_of_token found]
    refine ⟨⟨run, ?_, lawful⟩, ?_⟩
    · rwa [spell]
    · rw [spelled, spell, ← whole, ← found, List.takeWhile_append_dropWhile]
termination_by line.length

/-- Only one sequence of lexemes obeys the rules and spells a line. -/
theorem scanLine_of_lawful {lexemes : List Lexeme} {trail : List Char}
    (lawful : Lawful lexemes trail) : scanLine (spelled lexemes trail) = (lexemes, trail) := by
  induction lexemes with
  | nil => exact scanLine_of_spaces (List.dropWhile_eq_nil_iff.mpr lawful)
  | cons lexeme rest ih =>
    obtain ⟨gap, admitted, lawful⟩ := lawful
    obtain ⟨c, more, text, space⟩ := admitted.starts
    have stop : startsWith isSpace (lexeme.text ++ spelled rest trail) = false := by
      simpa [text, startsWith] using space
    have read := scanToken_of_admitted (text ▸ admitted)
    have found : (spelled (lexeme :: rest) trail).dropWhile isSpace =
        c :: (more ++ spelled rest trail) := by
      rw [spelled, dropWhile_run gap stop, text, List.cons_append]
    rw [scanLine_of_token found, read]
    simp [ih lawful, spelled, takeWhile_run gap stop, ← text]

/-- A word is read as a name unless it is a keyword. -/
theorem TokenKind.ofWord_cases (word : String) :
    ofWord word = .name ∨ (ofWord word).keyword? = some word := by
  unfold ofWord
  cases found : all.find? (·.keyword? = some word) with
  | none => exact .inl rfl
  | some kind =>
    have keyword := List.find?_some found
    exact .inr (by simpa using keyword)

theorem TokenKind.ofWord_inner (word : String) :
    ofWord word ≠ .endOfLine ∧ ofWord word ≠ .endOfFile := by
  rcases ofWord_cases word with name | keyword
  · simp [name]
  · constructor <;> intro kind <;> simp [kind, keyword?] at keyword

/-- No token that is read off a line is the end of a line or of the file. -/
theorem Admitted.inner {kind : TokenKind} {text next : List Char}
    (admitted : Admitted kind text next) : kind ≠ .endOfLine ∧ kind ≠ .endOfFile := by
  cases admitted with
  | word => exact TokenKind.ofWord_inner _
  | _ => simp

theorem Lawful.admitted {lexemes : List Lexeme} {trail : List Char} (lawful : Lawful lexemes trail)
    {lexeme : Lexeme} (member : lexeme ∈ lexemes) :
    ∃ next, Admitted lexeme.kind lexeme.text next := by
  induction lexemes with
  | nil => cases member
  | cons first rest ih =>
    obtain ⟨_, admitted, later⟩ := lawful
    rcases List.mem_cons.mp member with rfl | inside
    · exact ⟨_, admitted⟩
    · exact ih later inside

theorem Lawful.eq_nil_of_spelled {lexemes : List Lexeme} {trail : List Char}
    (lawful : Lawful lexemes trail) (empty : spelled lexemes trail = []) :
    lexemes = [] ∧ trail = [] := by
  cases lexemes with
  | nil => exact ⟨rfl, empty⟩
  | cons lexeme rest =>
    obtain ⟨c, more, text, _⟩ := lawful.2.1.starts
    simp [spelled, text] at empty

theorem scanLine_eq_iff {line : List Char} {lexemes : List Lexeme} {trail : List Char} :
    scanLine line = (lexemes, trail) ↔ Lawful lexemes trail ∧ spelled lexemes trail = line := by
  constructor
  · intro scanned
    simpa [scanned] using scanLine_lawful line
  · rintro ⟨lawful, rfl⟩
    exact scanLine_of_lawful lawful

end LineScript
