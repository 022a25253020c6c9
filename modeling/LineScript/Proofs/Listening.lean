import LineScript.Command.Launch
import LineScript.Command.Machine
import LineScript.Outcome

namespace LineScript

/-- The text of a variable without the blanks around it, unless it is unset or blank. -/
def Variables.text? (vars : Variables) (name : String) : Option String :=
  ((vars.get? name).map trimBlanks).filter (!·.isEmpty)

theorem Variables.text?_ne_empty {vars : Variables} {name text : String}
    (found : vars.text? name = some text) : text ≠ "" := by
  have filled := (Option.filter_eq_some_iff.mp found).2
  rintro rfl
  cases filled

section Reading

variable {α : Type} {vars : Variables} {name : String} {default value : α}
  {convert : String → Except BadValue α}

theorem Variables.read_of_none (blank : vars.text? name = none) :
    vars.read name default convert = .ok default := by
  rw [read]
  split
  · rfl
  · next raw found =>
    rw [text?, found, Option.map_some, Option.filter_eq_none_iff] at blank
    rw [if_pos (by simpa using blank)]

theorem Variables.convert_of_read {text : String} (found : vars.text? name = some text)
    (done : vars.read name default convert = .ok value) : convert text = .ok value := by
  obtain ⟨given, filled⟩ := Option.filter_eq_some_iff.mp found
  obtain ⟨raw, present, rfl⟩ := Option.map_eq_some_iff.mp given
  rw [read, present] at done
  dsimp only at done
  rw [if_neg (by simpa using filled)] at done
  split at done
  · next converted =>
    cases done
    exact converted
  · cases done

/-- A value that is read is the default, or it is what a text converts to. -/
theorem Variables.read_cases (done : vars.read name default convert = .ok value) :
    value = default ∨ ∃ text, text ≠ "" ∧ convert text = .ok value := by
  cases found : vars.text? name with
  | none =>
    rw [read_of_none found] at done
    exact .inl (Except.ok.inj done).symm
  | some text => exact .inr ⟨text, text?_ne_empty found, convert_of_read found done⟩

end Reading

theorem readPort_eq_ok_iff {text : String} {port : Int} :
    readPort text = .ok port ↔ readInteger text = .ok port ∧ isPort port := by
  rw [readPort]
  cases readInteger text with
  | error problem => simp
  | ok number =>
    by_cases within : isPort number
    · simp only [within, if_true, Except.ok.injEq]
      exact ⟨fun same => ⟨same, same ▸ within⟩, And.left⟩
    · simp only [within, if_false, Except.ok.injEq, reduceCtorEq, false_iff, not_and]
      exact fun same => same ▸ within

namespace Settings

/-- The settings never give an address that cannot be listened on. -/
theorem address_admissible {vars : Variables} {address : String × Int}
    (found : Settings.address vars = .ok address) : address.1 ≠ "" ∧ isPort address.2 := by
  obtain ⟨host, hosted, others⟩ := exists_of_bind_eq_ok found
  obtain ⟨port, ported, made⟩ := exists_of_bind_eq_ok others
  have filled : host ≠ "" := by
    rcases Variables.read_cases hosted with rfl | ⟨text, filled, same⟩
    · decide
    · cases same
      exact filled
  have within : isPort port := by
    rcases Variables.read_cases ported with rfl | ⟨text, _, read⟩
    · decide
    · exact (readPort_eq_ok_iff.mp read).2
  cases made
  exact ⟨filled, within⟩

/-- A variable that gives no port that can be listened on is refused. -/
theorem address_refused {vars : Variables} {text : String}
    (given : vars.text? "CURAGE_LS_PORT" = some text)
    (outside : ∀ port, readInteger text = .ok port → ¬ isPort port) (address : String × Int) :
    Settings.address vars ≠ .ok address := by
  intro found
  obtain ⟨host, _, others⟩ := exists_of_bind_eq_ok found
  obtain ⟨port, ported, _⟩ := exists_of_bind_eq_ok others
  obtain ⟨read, within⟩ := readPort_eq_ok_iff.mp (Variables.convert_of_read given ported)
  exact outside port read within

end Settings

namespace Launch

theorem textOr_ne_empty {default : String} (filled : default ≠ "") (given : Option String) :
    textOr given default ≠ "" := by
  cases given with
  | none => exact filled
  | some text =>
    rw [textOr]
    split
    · exact filled
    · next other => exact fun blank => other (by rw [blank]; rfl)

/-- The number that the arguments give as the port, where zero counts as none. -/
def portOption? (arguments : List String) : Option Int :=
  match spec.read arguments with
  | .ok (.given given) => (given.integer? "--port").filter (· ≠ 0)
  | _ => none

theorem numberOr_eq (given : Option Int) (default : Int) :
    numberOr given default = (given.filter (· ≠ 0)).getD default := by
  cases given with
  | none => rfl
  | some number =>
    by_cases zero : number = 0 <;> simp [numberOr, zero, Option.filter]

/-- Where a launch listens that is asked to. -/
theorem startOf_eq_tcp_iff {given : Given} {address : String × Int} {host : String} {port : Int} :
    startOf given address = .tcp host port ↔ given.hasFlag "--tcp" ∧
      textOr (given.text? "--host") address.1 = host ∧
      numberOr (given.integer? "--port") address.2 = port := by
  by_cases asked : given.hasFlag "--tcp" <;> simp [startOf, asked]

/-- What the settings of a launch are made of. -/
theorem address_of_settings {given : Given} {vars : Variables} {name : LevelName}
    {address : String × Int} (usable : settings given vars = .ok (name, address)) :
    Settings.address vars = .ok address := by
  obtain ⟨_, _, others⟩ := exists_of_bind_eq_ok usable
  obtain ⟨_, found, made⟩ := exists_of_bind_eq_ok others
  cases made
  exact found

section Run

variable {Failure : Type}

/-- A launch that was refused: a usage error, and nothing loaded, started or made. -/
def Refused (launch : LaunchReport Failure) : Prop :=
  ∃ error, launch = ⟨.usageError program usage Report.quietLevel error, none, none, []⟩

variable {openLog : String → Except Failure (List String)} {loaded : Option Session}
  {arguments : List String} {vars : Variables}

/-- A launch starts the server exactly if its arguments and settings can be used, its log opens and the
server can be loaded. -/
theorem run_started_iff {start : Start} : (run openLog loaded arguments vars).started = some start ↔
    ∃ given name address made server, spec.read arguments = .ok (.given given) ∧
      settings given vars = .ok (name, address) ∧ openLogOf openLog given = .ok made ∧
      load loaded vars = .ok server ∧ start = startOf given address := by
  constructor
  · intro started
    unfold run at started
    dsimp only at started
    split at started
    · cases started
    · cases started
    · next given accepted =>
      split at started
      · cases started
      · next name address usable =>
        split at started
        · cases started
        · next made opened =>
          split at started
          · cases started
          · next server found =>
            cases started
            exact ⟨given, name, address, made, server, accepted, usable, opened, found, rfl⟩
  · rintro ⟨given, name, address, made, server, accepted, usable, opened, found, rfl⟩
    simp only [run, accepted, usable, opened, found]

-- The server reads its own setting when it is loaded, and that is after the log was opened.
example : (run Folder.empty.openLog none ["--tcp"] ⟨[("CURAGE_BLOCK_SCOPING", "maybe")]⟩).started = none := by
  decide +kernel

/-- A command line that asks for no help is refused if its settings cannot be used. -/
theorem run_refused (helpless : spec.read arguments ≠ .ok .help)
    (unusable : ∀ given settled, settings given vars ≠ .ok settled) :
    Refused (run openLog loaded arguments vars) := by
  unfold run
  dsimp only
  split
  · next error _ => exact ⟨error, rfl⟩
  · next asked => exact absurd asked helpless
  · next given _ =>
    split
    · next error _ => exact ⟨.other error.message, rfl⟩
    · next found => exact absurd found (unusable given _)

end Run

/-- Where a launch listens, whatever becomes of its log and whether or not the server is there already.
The host is never empty, and a variable is refused if it gives no port that can be listened on. The option
is not checked like that: what it gives is listened on whatever it is, so the port can be listened on
exactly if the option gives none or such a one. A launch that asks for it listens exactly if its arguments
and settings can be used, its log opens and the server can be loaded. -/
theorem run_listens_on_port_iff_option_in_range {Failure : Type}
    (openLog : String → Except Failure (List String)) (loaded : Option Session)
    (arguments : List String) (vars : Variables) :
    let launch := run openLog loaded arguments vars
    (∀ host port, launch.started = some (.tcp host port) → host ≠ "" ∧
      (isPort port ↔ ∀ number, portOption? arguments = some number → isPort number) ∧
      ∀ number, portOption? arguments = some number → port = number) ∧
    (∀ text, vars.text? "CURAGE_LS_PORT" = some text →
      (∀ port, readInteger text = .ok port → ¬ isPort port) → spec.read arguments ≠ .ok .help →
      Refused launch) ∧
    ((∃ host port, launch.started = some (.tcp host port)) ↔
      ∃ given settled made server, spec.read arguments = .ok (.given given) ∧
        settings given vars = .ok settled ∧ openLogOf openLog given = .ok made ∧
        load loaded vars = .ok server ∧ given.hasFlag "--tcp") := by
  intro launch
  refine ⟨?_, ?_, ?_, ?_⟩
  · intro host port started
    obtain ⟨given, name, address, _, _, accepted, usable, _, _, start⟩ := run_started_iff.mp started
    obtain ⟨filled, within⟩ := Settings.address_admissible (address_of_settings usable)
    have option : portOption? arguments = (given.integer? "--port").filter (· ≠ 0) := by
      rw [portOption?, accepted]
    obtain ⟨_, rfl, rfl⟩ := startOf_eq_tcp_iff.mp start.symm
    refine ⟨textOr_ne_empty filled _, ?_⟩
    rw [numberOr_eq, ← option]
    cases portOption? arguments with
    | none => simp [within]
    | some number => simp
  · intro text given outside helpless
    apply run_refused helpless
    rintro other ⟨name, address⟩ usable
    exact Settings.address_refused given outside address (address_of_settings usable)
  · rintro ⟨host, port, started⟩
    obtain ⟨given, name, address, made, server, accepted, usable, opened, found, start⟩ :=
      run_started_iff.mp started
    obtain ⟨asked, _⟩ := startOf_eq_tcp_iff.mp start.symm
    exact ⟨given, _, made, server, accepted, usable, opened, found, asked⟩
  · rintro ⟨given, settled, made, server, accepted, usable, opened, found, asked⟩
    have start : startOf given settled.2 = .tcp _ _ := startOf_eq_tcp_iff.mpr ⟨asked, rfl, rfl⟩
    exact ⟨_, _, run_started_iff.mpr ⟨given, _, _, made, server, accepted, usable, opened, found, start.symm⟩⟩

/-- Numbers beside the range, from the option and from the variable. -/
theorem run_listens_on_port_iff_option_in_range_beside_range :
    (∃ host, (run Folder.empty.openLog none ["--tcp", "--port=-5"]
        ⟨[("CURAGE_LS_PORT", " 9000 ")]⟩).started = some (.tcp host (-5)) ∧
      host ≠ "" ∧ ¬ isPort (-5)) ∧
    Refused (run Folder.empty.openLog none ["--tcp", "--port=1"] ⟨[("CURAGE_LS_PORT", "0")]⟩) := by
  constructor
  · have started : (run Folder.empty.openLog none ["--tcp", "--port=-5"]
        ⟨[("CURAGE_LS_PORT", " 9000 ")]⟩).started = some (.tcp "127.0.0.1" (-5)) := by decide +kernel
    have option : portOption? ["--tcp", "--port=-5"] = some (-5) := by decide +kernel
    obtain ⟨filled, within, _⟩ := (run_listens_on_port_iff_option_in_range _ _ _ _).1 _ _ started
    refine ⟨_, started, filled, fun admitted => ?_⟩
    cases within.mp admitted _ option
  · refine (run_listens_on_port_iff_option_in_range _ _ _ _).2.1 "0" (by decide +kernel) ?_ ?_
    · intro port read
      have zero : (readInteger "0").toOption = some 0 := by decide +kernel
      rw [read] at zero
      cases zero
      decide
    · have other : (run Folder.empty.openLog none ["--tcp", "--port=1"] ⟨[]⟩).started ≠ none := by
        decide +kernel
      intro asked
      exact other (by rw [run, asked])

/-- The option gives a port beyond the range, and the server listens on it. -/
theorem run_listens_on_port_out_of_range :
    (run Folder.empty.openLog none ["--tcp", "--port", "70000"] ⟨[]⟩).started =
        some (.tcp "127.0.0.1" 70000) ∧
      ¬ isPort 70000 ∧
      ¬ Refused (run Folder.empty.openLog none ["--tcp", "--port", "70000"] ⟨[]⟩) := by
  have started : (run Folder.empty.openLog none ["--tcp", "--port", "70000"] ⟨[]⟩).started =
      some (.tcp "127.0.0.1" 70000) := by
    decide +kernel
  refine ⟨started, by decide, ?_⟩
  rintro ⟨error, refused⟩
  rw [refused] at started
  cases started

end Launch

end LineScript
