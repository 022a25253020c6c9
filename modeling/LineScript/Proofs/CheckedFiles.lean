import LineScript.Command.Machine
import LineScript.Proofs.Agreement
import LineScript.Proofs.CommandWords

namespace LineScript

namespace Check

section Files

variable {Failure : Type} (openFile : String → Except Failure Contents) (blockScoping : Bool)

/-- The text that a file is read as, every line break in it a line feed. There is none if the file cannot
be opened, or if its bytes are no text. -/
def textAt? (path : String) : Option String :=
  match openFile path with
  | .error _ => none
  | .ok contents => contents.decode?.map fun text => String.ofList (unifyBreaks text.toList)

/-- A file that can be opened, but whose bytes are no text. -/
def isGarbled (path : String) : Bool :=
  match openFile path with
  | .error _ => false
  | .ok contents => contents.decode?.isNone

/-- The files that can be read, each with its text. -/
def readable (paths : List String) : List (String × String) :=
  paths.filterMap fun path => (textAt? openFile path).map (path, ·)

def hasDiagnostics (text : String) : Bool :=
  match analyze text blockScoping with
  | .ok model => !model.diagnostics.isEmpty
  | .error _ => false

/-- The exit status for some files: two if one of them cannot be read, else one if the text of one of
them has a diagnostic. -/
def statusOf (paths : List String) : Nat :=
  if paths.any fun path => (textAt? openFile path).isNone then 2
  else if (readable openFile paths).any fun file => hasDiagnostics blockScoping file.2 then 1
  else 0

/-- A block that reports on a file: one line for each diagnostic of its text, by increasing starts. -/
def IsBlock (file : String × String) (block : String) : Prop :=
  ∃ (model : Model) (ordered : List Diagnostic), analyze file.2 blockScoping = .ok model ∧
    ordered.Perm model.diagnostics ∧ ordered.Pairwise (·.range.start < ·.range.start) ∧
    block = String.join (ordered.map (diagnosticLine file.1))

/-- An output that reports on files: a block for each one that can be read, in their order. -/
def Reports (paths : List String) (output : String) : Prop :=
  ∃ blocks, List.Forall₂ (IsBlock blockScoping) (readable openFile paths) blocks ∧
    output = String.join blocks

/-- What a checker owes for its files: a report on each one that can be read, and a status that counts
each one that cannot. -/
structure Complete (paths : List String) (report : Report Escape) : Prop where
  output : Reports openFile blockScoping paths report.output
  ending : report.ending = .exit (statusOf openFile blockScoping paths)

variable {openFile blockScoping}

/-- A block is known by the text that it reports on. -/
theorem IsBlock.eq_of_increasing {path text block : String} {diagnostics : List Diagnostic}
    (told : IsBlock blockScoping (path, text) block)
    (known : (analyze text blockScoping).map Model.diagnostics = .ok diagnostics)
    (increasing : diagnostics.Pairwise (·.range.start < ·.range.start)) :
    block = String.join (diagnostics.map (diagnosticLine path)) := by
  obtain ⟨model, ordered, analyzed, perm, order, rfl⟩ := told
  have own : analyze text blockScoping = .ok model := analyzed
  rw [own] at known
  cases known
  have same : ordered = model.diagnostics := by
    refine perm.eq_of_pairwise ?_ order increasing
    intro one two _ _ first second
    rw [Position.lt_iff] at first second
    omega
  rw [same]

theorem readable_append (first second : List String) :
    readable openFile (first ++ second) = readable openFile first ++ readable openFile second :=
  List.filterMap_append

theorem statusOf_append (first second : List String) :
    statusOf openFile blockScoping (first ++ second) =
      max (statusOf openFile blockScoping first) (statusOf openFile blockScoping second) := by
  simp only [statusOf, List.any_append, readable_append]
  generalize first.any (fun path => (textAt? openFile path).isNone) = lost
  generalize second.any (fun path => (textAt? openFile path).isNone) = missing
  generalize (readable openFile first).any (fun file => hasDiagnostics blockScoping file.2) = wrong
  generalize (readable openFile second).any (fun file => hasDiagnostics blockScoping file.2) = faulty
  revert lost missing wrong faulty
  decide

theorem statusOf_le (paths : List String) : statusOf openFile blockScoping paths ≤ 2 := by
  unfold statusOf
  split
  · exact Nat.le_refl 2
  · split <;> decide

theorem Reports.append {first second : List String} {one two : String}
    (early : Reports openFile blockScoping first one) (late : Reports openFile blockScoping second two) :
    Reports openFile blockScoping (first ++ second) (one ++ two) := by
  obtain ⟨blocks, each, rfl⟩ := early
  obtain ⟨others, also, rfl⟩ := late
  refine ⟨blocks ++ others, ?_, String.join_append.symm⟩
  rw [readable_append]
  exact List.rel_append each also

variable (openFile blockScoping) in
/-- What a run comes to over some files that it gets through: the status grows to what the files call
for, and the output by what reports on them. -/
structure Tally.Advances (tally : Tally) (paths : List String) (after : Tally) : Prop where
  status : after.status = max tally.status (statusOf openFile blockScoping paths)
  output : ∃ told, Reports openFile blockScoping paths told ∧ after.output = tally.output ++ told

namespace Tally.Advances

variable {tally middle after : Tally} {first second : List String}

theorem refl (tally : Tally) : tally.Advances openFile blockScoping [] tally :=
  ⟨(Nat.max_zero _).symm, "", ⟨[], .nil, rfl⟩, String.append_empty.symm⟩

theorem trans (early : tally.Advances openFile blockScoping first middle)
    (late : middle.Advances openFile blockScoping second after) :
    tally.Advances openFile blockScoping (first ++ second) after := by
  obtain ⟨one, reported, output⟩ := early.output
  obtain ⟨two, also, further⟩ := late.output
  refine ⟨?_, one ++ two, reported.append also, ?_⟩
  · rw [late.status, early.status, statusOf_append, Nat.max_assoc]
  · rw [further, output, String.append_assoc]

theorem status_le (advances : tally.Advances openFile blockScoping first after)
    (bound : tally.status ≤ 2) : after.status ≤ 2 := by
  rw [advances.status]
  exact Nat.max_le.mpr ⟨bound, statusOf_le first⟩

end Tally.Advances

variable {tally : Tally} {word : String}

/-- A file that cannot be opened raises the status and leaves the output alone. -/
theorem advances_unopened {path : String} {failure : Failure} (failed : openFile path = .error failure)
    (bound : tally.status ≤ 2) (logs : List LogRecord) :
    tally.Advances openFile blockScoping [path] ⟨2, tally.output, logs⟩ := by
  have none : textAt? openFile path = none := by rw [textAt?, failed]
  have status : statusOf openFile blockScoping [path] = 2 := by simp [statusOf, none]
  have files : readable openFile [path] = [] := by simp [readable, none]
  refine ⟨?_, "", ⟨[], files ▸ .nil, rfl⟩, String.append_empty.symm⟩
  -- The status is overwritten, and that is the greater of the two since none is beyond two.
  rw [status]
  exact (Nat.max_eq_right bound).symm

theorem inOrder_isEmpty (model : Model) : (inOrder model).isEmpty = model.diagnostics.isEmpty := by
  have length : (inOrder model).length = model.diagnostics.length := (List.mergeSort_perm _ _).length_eq
  rw [Bool.eq_iff_iff, List.isEmpty_iff_length_eq_zero, List.isEmpty_iff_length_eq_zero, length]

variable (blockScoping) in
/-- A file that is read raises the status if its text has a diagnostic, and is reported. -/
theorem checkText_advances {path text : String} {contents : Contents}
    (opened : openFile path = .ok contents) (decoded : contents.decode? = some text) (tally : Tally) :
    ∃ after, checkText blockScoping tally path text = .ok after ∧
      tally.Advances openFile blockScoping [path] after := by
  let plain := String.ofList (unifyBreaks text.toList)
  obtain ⟨model, analyzed⟩ : ∃ model, analyze plain blockScoping = .ok model :=
    ⟨_, analyze_eq plain blockScoping⟩
  have found : textAt? openFile path = some plain := by
    rw [textAt?, opened]
    simp only [decoded, Option.map_some, plain]
  have status : statusOf openFile blockScoping [path] = if (inOrder model).isEmpty then 0 else 1 := by
    rw [inOrder_isEmpty]
    cases silent : model.diagnostics.isEmpty <;>
      simp [statusOf, readable, found, hasDiagnostics, analyzed, silent]
  have files : readable openFile [path] = [(path, plain)] := by simp [readable, found]
  refine ⟨{
    status := if (inOrder model).isEmpty then tally.status else max tally.status 1
    output := tally.output ++ String.join ((inOrder model).map (diagnosticLine path))
    logs := tally.logs ++ trace plain model }, ?_, ?_, ?_⟩
  · simp only [checkText, plain] at analyzed ⊢
    rw [analyzed]
    rfl
  · rw [status]
    split
    · exact (Nat.max_zero _).symm
    · rfl
  · have block : IsBlock blockScoping (path, plain) (String.join ((inOrder model).map (diagnosticLine path))) :=
      ⟨model, inOrder model, analyzed, List.mergeSort_perm _ _, inOrder_increasing analyzed, rfl⟩
    have blocks := List.Forall₂.cons block .nil
    rw [← files] at blocks
    refine ⟨_, ⟨_, blocks, rfl⟩, ?_⟩
    rw [String.join_cons, String.join_nil, String.append_empty]

section Run

variable [TellsFailure Failure] (named : '\x00' ∉ (plainPath word).toList)
include named

variable (blockScoping) in
/-- A file that is not garbled is got through, and the run goes on with the others. -/
theorem checkFiles_step (legible : isGarbled openFile (plainPath word) = false) (bound : tally.status ≤ 2) :
    ∃ after, tally.Advances openFile blockScoping [plainPath word] after ∧
      ∀ rest, checkFiles blockScoping openFile tally (word :: rest) =
        checkFiles blockScoping openFile after rest := by
  cases opened : openFile (plainPath word) with
  | error failure =>
    let record : LogRecord := ⟨.error, "curage.__main__",
      "cannot read " ++ plainPath word ++ ": " ++ TellsFailure.message failure (plainPath word)⟩
    refine ⟨_, advances_unopened opened bound (tally.logs ++ [record]), fun rest => ?_⟩
    rw [checkFiles]
    simp only [if_neg named, opened, record]
  | ok contents =>
    rw [isGarbled, opened] at legible
    obtain ⟨text, decoded⟩ := Option.isSome_iff_exists.mp (Option.isNone_eq_false_iff.mp legible)
    obtain ⟨after, checked, advances⟩ := checkText_advances blockScoping opened decoded tally
    refine ⟨after, advances, fun rest => ?_⟩
    rw [checkFiles]
    simp only [if_neg named, opened, decoded, checked]

/-- A garbled file ends the run. -/
theorem checkFiles_garbled (garbled : isGarbled openFile (plainPath word)) (rest : List String) :
    checkFiles blockScoping openFile tally (word :: rest) = (tally, some (.escape .notText)) := by
  unfold isGarbled at garbled
  split at garbled
  · cases garbled
  · next contents opened =>
    rw [checkFiles]
    simp only [if_neg named, opened, Option.isNone_iff_eq_none.mp garbled]

end Run

/-- A run gets through the files up to the first garbled one, and there it ends. -/
theorem checkFiles_advances [TellsFailure Failure] {words : List String}
    (named : ∀ word ∈ words, '\x00' ∉ (plainPath word).toList) (bound : tally.status ≤ 2) :
    ∃ after, tally.Advances openFile blockScoping
        ((words.map plainPath).takeWhile (!isGarbled openFile ·)) after ∧
      checkFiles blockScoping openFile tally words = (after,
        if (words.map plainPath).any (isGarbled openFile) then some (.escape .notText) else none) := by
  -- The bound on the status goes along, because a file that cannot be opened overwrites it.
  induction words generalizing tally with
  | nil => exact ⟨tally, .refl tally, rfl⟩
  | cons word rest ih =>
    obtain ⟨here, others⟩ := List.forall_mem_cons.mp named
    cases garbled : isGarbled openFile (plainPath word) with
    | true =>
      refine ⟨tally, ?_, ?_⟩
      · simpa [garbled] using Tally.Advances.refl tally
      · simp [checkFiles_garbled here garbled, garbled]
    | false =>
      obtain ⟨middle, advances, goes⟩ := checkFiles_step blockScoping here garbled bound
      obtain ⟨after, further, ends⟩ := ih others (advances.status_le bound)
      refine ⟨after, ?_, ?_⟩
      · simpa [garbled] using advances.trans further
      · simpa [goes, garbled] using ends

/-- A command line that names files and settings that can be used, which ask for a way of scoping. -/
def Accepts (arguments : List String) (vars : Variables) (blockScoping : Bool) : Prop :=
  ∃ given name, spec.read arguments = .ok (.given given) ∧
    Settings.logLevel vars (given.text? "--log-level") = .ok name ∧
    scoping given vars = .ok blockScoping

theorem files_plain {arguments : List String} (filled : arguments ≠ [])
    (plain : ∀ argument ∈ arguments, argument.toList.head? ≠ some '-') :
    files arguments = arguments.map plainPath := by
  rw [files, CommandSpec.read_plain plain filled rfl]
  rfl

variable (openFile) in
/-- What a run leaves behind: reports on all files up to the first garbled one, and unless there is such
a file, the status that the files call for. -/
theorem exists_report [TellsFailure Failure] {arguments : List String} {vars : Variables}
    (accepts : Accepts arguments vars blockScoping)
    (named : ∀ path ∈ files arguments, '\x00' ∉ path.toList) :
    ∃ report, run arguments vars openFile = .ok report ∧
      Reports openFile blockScoping ((files arguments).takeWhile (!isGarbled openFile ·)) report.output ∧
      report.ending = if (files arguments).any (isGarbled openFile) then .escape .notText
        else .exit (statusOf openFile blockScoping ((files arguments).takeWhile (!isGarbled openFile ·))) := by
  obtain ⟨given, name, accepted, logged, asked⟩ := accepts
  have words : files arguments = (given.words.getD []).map plainPath := by rw [files, accepted]
  rw [words] at named ⊢
  have each : ∀ word ∈ given.words.getD [], '\x00' ∉ (plainPath word).toList :=
    fun word member => named _ (List.mem_map_of_mem member)
  obtain ⟨after, advances, ends⟩ := @checkFiles_advances Failure openFile blockScoping ⟨0, "", []⟩ _ _
    each (Nat.zero_le 2)
  obtain ⟨told, reported, output⟩ := advances.output
  have whole : after.output = told := output.trans String.empty_append
  have status := advances.status.trans (Nat.zero_max _)
  simp only [run, accepted, logged, asked, ends]
  cases (given.words.getD []).map plainPath |>.any (isGarbled openFile) with
  | true => exact ⟨_, rfl, whole.symm ▸ reported, rfl⟩
  | false => exact ⟨_, rfl, whole.symm ▸ reported, congrArg Ending.exit status⟩

/-- The files before the first garbled one. -/
theorem takeWhile_legible {before behind : List String} {path : String}
    (legible : ∀ earlier ∈ before, isGarbled openFile earlier = false)
    (garbled : isGarbled openFile path) :
    (before ++ path :: behind).takeWhile (!isGarbled openFile ·) = before := by
  rw [List.takeWhile_append_of_pos fun earlier member => by simp [legible earlier member],
    List.takeWhile_cons_of_neg (by simp [garbled]), List.append_nil]

theorem exists_complete_report [TellsFailure Failure] {arguments : List String} {vars : Variables}
    (accepts : Accepts arguments vars blockScoping)
    (named : ∀ path ∈ files arguments, '\x00' ∉ path.toList)
    (legible : ∀ path ∈ files arguments, isGarbled openFile path = false) :
    ∃ report, run arguments vars openFile = .ok report ∧
      Complete openFile blockScoping (files arguments) report := by
  have whole : (files arguments).takeWhile (!isGarbled openFile ·) = files arguments :=
    List.takeWhile_eq_self_iff.mpr fun path member => by simp [legible path member]
  have none : (files arguments).any (isGarbled openFile) = false := by
    rw [List.any_eq_false]
    exact fun path member => by simp [legible path member]
  obtain ⟨report, ran, output, ending⟩ := exists_report openFile accepts named
  rw [whole] at output ending
  rw [none] at ending
  exact ⟨report, ran, output, ending⟩

/-- The checker does what it owes for its files exactly if none of them is garbled. Else the run ends
without a status at the first garbled file, and no file behind that one is reported. -/
theorem run_complete_iff_no_file_garbled [TellsFailure Failure] {arguments : List String}
    {vars : Variables} (accepts : Accepts arguments vars blockScoping)
    (named : ∀ path ∈ files arguments, '\x00' ∉ path.toList) :
    ∃ report, run arguments vars openFile = .ok report ∧
      (Complete openFile blockScoping (files arguments) report ↔
        ∀ path ∈ files arguments, isGarbled openFile path = false) ∧
      ∀ before path behind, files arguments = before ++ path :: behind →
        (∀ earlier ∈ before, isGarbled openFile earlier = false) → isGarbled openFile path →
        report.ending = .escape .notText ∧ Reports openFile blockScoping before report.output := by
  obtain ⟨report, ran, output, ending⟩ := exists_report openFile accepts named
  refine ⟨report, ran, ⟨fun complete path member => ?_, fun legible => ?_⟩, ?_⟩
  · rw [Bool.eq_false_iff]
    intro garbled
    rw [if_pos (List.any_eq_true.mpr ⟨path, member, garbled⟩)] at ending
    cases complete.ending.symm.trans ending
  · obtain ⟨other, again, complete⟩ := exists_complete_report accepts named legible
    cases ran.symm.trans again
    exact complete
  · intro before path behind split legible garbled
    rw [split, takeWhile_legible legible garbled] at output
    rw [if_pos (List.any_eq_true.mpr ⟨path, by simp [split], garbled⟩)] at ending
    exact ⟨ending, output⟩

/-- A file without a text stands between two that have diagnostics. -/
theorem run_complete_iff_no_file_garbled_between_others :
    let openFile : String → Except OpenFailure Contents := fun path =>
      if path = "a" then .ok (.text "x") else if path = "b" then .ok (.bytes [0xff])
      else .ok (.text "y")
    Accepts ["a", "b", "c"] ⟨[]⟩ false ∧
      ∃ report, run ["a", "b", "c"] ⟨[]⟩ openFile = .ok report ∧
        ¬ Complete openFile false (files ["a", "b", "c"]) report ∧ report.ending = .escape .notText ∧
        report.output = "a:1:1: warning: 'x' is not defined.\n" := by
  intro openFile
  have accepts : Accepts ["a", "b", "c"] ⟨[]⟩ false :=
    ⟨_, Settings.defaultLevel, CommandSpec.read_plain (by decide) (by decide) rfl, rfl, rfl⟩
  have split : files ["a", "b", "c"] = ["a"] ++ "b" :: ["c"] := by
    rw [files_plain (by decide) (by decide)]
    decide +kernel
  obtain ⟨report, ran, complete, stops⟩ := @run_complete_iff_no_file_garbled _ openFile _ _ _ _ accepts
    (by rw [split]; decide +kernel)
  obtain ⟨ending, blocks, each, output⟩ := stops ["a"] "b" ["c"] split (by decide +kernel) (by decide +kernel)
  have files : readable openFile ["a"] = [("a", "x")] := by decide +kernel
  have wrong : (analyze "x" false).map Model.diagnostics =
      .ok [.warning "'x' is not defined." ⟨⟨0, 0⟩, ⟨0, 1⟩⟩] := by decide +kernel
  rw [files] at each
  rcases each with _ | ⟨one, _ | _⟩
  refine ⟨accepts, report, ran, fun owed => ?_, ending, ?_⟩
  · have legible := complete.mp owed "b" (by simp [split])
    revert legible
    decide +kernel
  · rw [output, one.eq_of_increasing wrong (List.pairwise_singleton _ _)]
    decide +kernel

/-- The file behind the garbled one has a diagnostic, which nobody sees. -/
theorem run_escapes_at_garbled_file :
    let folder : Folder := ⟨[(["a"], some (.bytes [0xff])), (["b"], some (.text "x"))]⟩
    let report : Report Escape := ⟨.escape .notText, .critical, "", ""⟩
    run ["a", "b"] ⟨[("CURAGE_LOG_LEVEL", "critical")]⟩ folder.openFile = .ok report ∧
      readable folder.openFile (files ["a", "b"]) = [("b", "x")] ∧ hasDiagnostics false "x" ∧
      ¬ Complete folder.openFile false (files ["a", "b"]) report := by
  intro folder report
  have here : plainPath "a" = "a" := by decide +kernel
  have there : plainPath "b" = "b" := by decide +kernel
  have garbled : folder.openFile "a" = .ok (.bytes [0xff]) := by decide +kernel
  have text : folder.openFile "b" = .ok (.text "x") := by decide +kernel
  have bytes : (Contents.bytes [0xff]).decode? = none := by decide +kernel
  have named : '\x00' ∉ (plainPath "a").toList := by
    rw [here]
    decide
  have stops : isGarbled folder.openFile (plainPath "a") := by
    rw [here, isGarbled, garbled]
    simp only [bytes, Option.isNone_none]
  refine ⟨?_, ?_, by decide +kernel, fun complete => nomatch complete.ending⟩
  · have read : spec.read ["a", "b"] = .ok (.given ⟨[], some ["a", "b"], []⟩) :=
      CommandSpec.read_plain (by decide) (by decide) rfl
    have level : Settings.logLevel ⟨[("CURAGE_LOG_LEVEL", "critical")]⟩
        (Given.text? ⟨[], some ["a", "b"], []⟩ "--log-level") = .ok ⟨"CRITICAL", .critical⟩ := by
      decide +kernel
    have asked : scoping ⟨[], some ["a", "b"], []⟩ ⟨[("CURAGE_LOG_LEVEL", "critical")]⟩ = .ok false := by
      decide +kernel
    simp only [run, read, level, asked, Option.getD_some, checkFiles_garbled named stops]
    rfl
  · have lost : textAt? folder.openFile "a" = none := by
      rw [textAt?, garbled]
      simp only [bytes, Option.map_none]
    have kept : textAt? folder.openFile "b" = some "x" := by
      rw [textAt?, text]
      decide +kernel
    rw [files_plain (by decide) (by decide)]
    simp [readable, here, there, lost, kept]

end Files

end Check

end LineScript
