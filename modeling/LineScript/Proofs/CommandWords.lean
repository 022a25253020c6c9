import LineScript.Command.Check
import LineScript.Outcome
import Mathlib.Data.List.TakeWhile

namespace LineScript

namespace Given

end Given

namespace Argument

/-- The arguments that are no options, as they were written. -/
def plainTexts (roles : List Argument) : List String := (roles.filter (!·.isOption)).map text

theorem plainTexts_sublist_cons (role : Argument) (roles : List Argument) :
    (plainTexts roles).Sublist (plainTexts (role :: roles)) :=
  ((List.sublist_cons_self role roles).filter _).map _

/-- A run of arguments that are no options, and what comes behind it. -/
theorem plainTexts_append {run : List Argument} (plain : ∀ role ∈ run, role.isOption = false)
    (rest : List Argument) : plainTexts (run ++ rest) = run.map text ++ plainTexts rest := by
  have kept : run.filter (!·.isOption) = run := by
    rw [List.filter_eq_self]
    intro role member
    rw [plain role member]
    rfl
  rw [plainTexts, List.filter_append, kept, List.map_append, plainTexts]

end Argument

open Argument

/-- What acting on some arguments does to the words of a command line: nothing, or the words become some
of the arguments, in their order. -/
def Given.TakesWords (given result : Given) (roles : List Argument) : Prop :=
  result.words = given.words ∨
    ∃ words, result.words = some words ∧ words.Sublist (plainTexts roles)

namespace Given.TakesWords

variable {given next result : Given} {roles : List Argument}

/-- An argument that leaves the words alone. -/
theorem skip (taken : next.TakesWords result roles) (same : next.words = given.words)
    (role : Argument) : given.TakesWords result (role :: roles) := by
  rcases taken with kept | ⟨words, found, order⟩
  · exact .inl (kept.trans same)
  · exact .inr ⟨words, found, order.trans (plainTexts_sublist_cons role roles)⟩

theorem run {run : List Argument} {wantsWords : Bool}
    (taken : (given.giveRun wantsWords run).TakesWords result roles)
    (plain : ∀ role ∈ run, role.isOption = false) : given.TakesWords result (run ++ roles) := by
  rcases taken with kept | ⟨words, found, order⟩
  · unfold giveRun at kept
    split at kept
    · refine .inr ⟨_, kept, ?_⟩
      rw [plainTexts_append plain]
      exact ((List.erase_sublist).map text).trans (List.sublist_append_left _ _)
    · exact .inl kept
  · refine .inr ⟨words, found, order.trans ?_⟩
    rw [plainTexts_append plain]
    exact List.sublist_append_right _ _

end Given.TakesWords

namespace CommandSpec

variable {spec : CommandSpec}

section Plain

variable {arguments : List String} (plain : ∀ argument ∈ arguments, argument.toList.head? ≠ some '-')
include plain

theorem classifyAll_plain : spec.classifyAll arguments = .ok (arguments.map .word) := by
  induction arguments with
  | nil => rfl
  | cons argument rest ih =>
    obtain ⟨first, others⟩ := List.forall_mem_cons.mp plain
    have named : argument ≠ "--" := by
      rintro rfl
      exact first (by decide)
    have role : spec.classify argument = .ok (.word argument) := if_pos first
    rw [classifyAll, if_neg named, role, ih others]
    rfl

/-- Where no argument looks like an option, all of them are words. -/
theorem read_plain (filled : arguments ≠ []) (wanted : spec.wantsWords) :
    spec.read arguments = .ok (.given ⟨[], some arguments, []⟩) := by
  obtain ⟨first, rest, rfl⟩ := List.exists_cons_of_ne_nil filled
  have words : ∀ role ∈ rest.map Argument.word, !role.isOption := by
    intro role member
    obtain ⟨text, _, rfl⟩ := List.mem_map.mp member
    rfl
  have whole : (rest.map Argument.word).takeWhile (!·.isOption) = rest.map .word :=
    List.takeWhile_eq_self_iff.mpr words
  have none : (rest.map Argument.word).dropWhile (!·.isOption) = [] :=
    List.dropWhile_eq_nil_iff.mpr words
  have unmarked : Argument.mark ∉ (first :: rest).map Argument.word := by simp
  have given : Given.giveRun .empty true ((first :: rest).map .word) = ⟨[], some (first :: rest), []⟩ := by
    have opens : (true && Given.empty.words.isNone && ((first :: rest).map Argument.word).any isWord) :=
      rfl
    rw [Given.giveRun, if_pos opens, List.erase_of_not_mem unmarked, List.map_map]
    simp [Function.comp_def, text, Given.empty]
  have acted : spec.act .empty ((first :: rest).map .word) = .ok (.given ⟨[], some (first :: rest), []⟩) := by
    rw [List.map_cons, act, whole, none, wanted, ← List.map_cons, given, act]
    · simp
    · simp
    · simp
  simp only [read, classifyAll_plain plain, bind, Except.bind, acted]
  rw [if_neg (by simp)]
  rfl

end Plain

end CommandSpec

end LineScript
