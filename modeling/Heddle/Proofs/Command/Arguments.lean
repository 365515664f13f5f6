import Mathlib.Data.List.Basic
import Heddle.Command

/-!
# What arguments ask for

Arguments are a command and behind it, in any order, files and options. There are five ways for them
to ask for nothing that can be done (`Unusable`), and all else is a request. What is asked for is
told by the command, by whether the one option is among the arguments, and by the arguments that are
not this option, in their order; so **nothing depends on where the option stands or on how often it
does** (`ofArgs_congr`).

That `--` begins an option is said here of the characters of an argument, since a file is whatever
does not begin so: a single dash makes no option, and `-h` behind a command is a file.
-/

set_option autoImplicit false

namespace Heddle

namespace Command

/-- The names of the commands, as they are written. -/
def names : List String := ["check", "tree", "highlight"]

theorem isSome_ofName?_iff {name : String} : (ofName? name).isSome ↔ name ∈ names := by
  unfold ofName?
  split
  · exact iff_of_true rfl (by decide)
  · exact iff_of_true rfl (by decide)
  · exact iff_of_true rfl (by decide)
  · rename_i hcheck htree hhighlight
    refine iff_of_false Bool.false_ne_true fun hm => ?_
    rcases List.mem_cons.1 hm with h | hm
    · exact hcheck h
    · rcases List.mem_cons.1 hm with h | hm
      · exact htree h
      · exact hhighlight (List.mem_singleton.1 hm)

end Command

namespace Invocation

/-- Arguments that ask for nothing the program can do. The five ways are said of the arguments
themselves and not of how they are checked, so more than one of them may apply; which complaint is
printed is another question. -/
inductive Unusable : List String → Prop where
  | noCommand : Unusable []
  | help {name : String} (h : name = "--help" ∨ name = "-h") (rest : List String) :
      Unusable (name :: rest)
  | unknownCommand {name : String} (h : name ∉ Command.names) (rest : List String) :
      Unusable (name :: rest)
  | unknownOption (name : String) {rest : List String} {arg : String} (harg : arg ∈ rest)
      (hoption : "--".toList <+: arg.toList) (hother : arg ≠ noSpacedCalls) :
      Unusable (name :: rest)
  | noFiles (name : String) {rest : List String} (h : ∀ arg ∈ rest, "--".toList <+: arg.toList) :
      Unusable (name :: rest)

/-- The arguments behind a command that are not the option. For usable arguments these are the
files. -/
def others (rest : List String) : List String := rest.filter (· ≠ noSpacedCalls)

/-- The option as often as there, and a single file: the arguments behind the command in the run
that treats this file by itself. -/
def alone (rest : List String) (path : String) : List String :=
  rest.filter (· = noSpacedCalls) ++ [path]

/-- Arguments behind a command that differ only in where, and how often, the option stands. -/
structure SameRequest (rest rest' : List String) : Prop where
  others : others rest' = others rest
  option : noSpacedCalls ∈ rest' ↔ noSpacedCalls ∈ rest

variable {command : Command} {name path : String} {rest rest' : List String}

theorem isOption_iff {arg : String} : isOption arg ↔ "--".toList <+: arg.toList := by
  rw [isOption, List.prefix_iff_eq_take, beq_iff_eq]
  exact eq_comm

theorem isOption_noSpacedCalls : isOption noSpacedCalls := by decide

/-! ## The option apart -/

theorem mem_others {arg : String} : arg ∈ others rest ↔ arg ∈ rest ∧ arg ≠ noSpacedCalls := by
  simp [others]

/-- An unknown option is looked for among the other arguments. Of the arguments a request depends
on nothing but these and on whether the option is there, which `ofArgs_congr` puts together. -/
theorem find?_unknown (rest : List String) :
    rest.find? (fun arg => isOption arg && arg != noSpacedCalls) =
      (others rest).find? isOption := by
  rw [others, List.find?_filter]
  congr 1
  funext arg
  by_cases h : arg = noSpacedCalls <;> simp [h]

/-- The files are looked for among the other arguments as well, since the option is no file. -/
theorem filter_files (rest : List String) :
    rest.filter (!isOption ·) = (others rest).filter (!isOption ·) := by
  rw [others, List.filter_filter]
  apply List.filter_congr
  intro arg _
  by_cases h : arg = noSpacedCalls
  · simp [h, isOption_noSpacedCalls]
  · simp [h]

/-- **Where the option stands, and how often, does not matter**, whatever the other arguments are;
arguments that are refused are refused with the same complaint. -/
theorem ofArgs_congr (h : SameRequest rest rest') (name : String) :
    ofArgs (name :: rest') = ofArgs (name :: rest) := by
  have hcontains : rest'.contains noSpacedCalls = rest.contains noSpacedCalls := by
    rw [Bool.eq_iff_iff, List.contains_iff_mem, List.contains_iff_mem]
    exact h.option
  have hrest (command : Command) : ofRest command rest' = ofRest command rest := by
    unfold ofRest
    rw [find?_unknown rest', find?_unknown rest, filter_files rest', filter_files rest, h.others,
      hcontains]
  simp only [ofArgs, hrest]

/-! ## Requests -/

/-- What behind a command makes a request of it: no unknown option, and at least one file. -/
theorem ofRest_eq_ok_iff {i : Invocation} :
    ofRest command rest = .ok i ↔
      (∀ arg ∈ rest, isOption arg → arg = noSpacedCalls) ∧ rest.filter (!isOption ·) ≠ [] ∧
        i = ⟨command, !rest.contains noSpacedCalls, rest.filter (!isOption ·)⟩ := by
  have hfind : (∀ arg ∈ rest, isOption arg → arg = noSpacedCalls) ↔
      rest.find? (fun arg => isOption arg && arg != noSpacedCalls) = none := by
    simp
  rw [hfind]
  unfold ofRest
  cases rest.find? (fun arg => isOption arg && arg != noSpacedCalls) with
  | some name => simp
  | none =>
    cases rest.filter (!isOption ·) with
    | nil => simp
    | cons path paths => simp [eq_comm]

/-- No command is a call for help, so the first argument is looked up right away. -/
theorem ofArgs_eq_ok_iff {i : Invocation} :
    ofArgs (name :: rest) = .ok i ↔
      ∃ command, Command.ofName? name = some command ∧ ofRest command rest = .ok i := by
  have hhelp : name = "--help" ∨ name = "-h" → Command.ofName? name = none := by
    rintro (rfl | rfl)
    · rfl
    · rfl
  by_cases h : name = "--help" ∨ name = "-h"
  · simp [ofArgs, h, hhelp h]
  · rw [not_or] at h
    cases hc : Command.ofName? name with
    | none => simp [ofArgs, h, hc]
    | some command => simp [ofArgs, h, hc]

/-- What usable arguments are made of. It is the negation of `Unusable`, said in a form from which
one can go on (`not_unusable_iff`). -/
structure Usable (name : String) (rest : List String) : Prop where
  command : name ∈ Command.names
  options : ∀ arg ∈ rest, "--".toList <+: arg.toList → arg = noSpacedCalls
  file : ∃ arg ∈ rest, ¬ "--".toList <+: arg.toList

theorem not_unusable_iff : ¬ Unusable (name :: rest) ↔ Usable name rest := by
  constructor
  · intro h
    refine ⟨?_, fun arg harg hoption => ?_, ?_⟩
    · by_contra hn
      exact h (.unknownCommand hn rest)
    · by_contra hother
      exact h (.unknownOption name harg hoption hother)
    · by_contra hnone
      push Not at hnone
      exact h (.noFiles name hnone)
  · rintro ⟨hcommand, hoptions, arg, harg, hfile⟩ h
    cases h with
    | help h =>
      rcases h with rfl | rfl
      · exact absurd hcommand (by decide)
      · exact absurd hcommand (by decide)
    | unknownCommand h => exact h hcommand
    | unknownOption _ harg hoption hother => exact hother (hoptions _ harg hoption)
    | noFiles _ h => exact hfile (h arg harg)

namespace Usable

variable (h : Usable name rest)
include h

theorem exists_ofName? : ∃ command, Command.ofName? name = some command :=
  Option.isSome_iff_exists.1 (Command.isSome_ofName?_iff.2 h.command)

/-- An argument is an option exactly if it is the one that there is. Without this the files would
have to be told from the options twice, once in the reader and once in `others`. -/
theorem isOption_eq {arg : String} (ha : arg ∈ rest) :
    isOption arg = decide (arg = noSpacedCalls) := by
  rw [Bool.eq_iff_iff, decide_eq_true_eq]
  constructor
  · intro hoption
    exact h.options arg ha (isOption_iff.1 hoption)
  · rintro rfl
    exact isOption_noSpacedCalls

/-- **Usable arguments are a request**: the command, whether a call may go without parentheses,
and the files in their order. -/
theorem ofArgs_eq (hc : Command.ofName? name = some command) :
    ofArgs (name :: rest) =
      .ok ⟨command, !rest.contains noSpacedCalls, others rest⟩ := by
  have hfilter : rest.filter (!isOption ·) = others rest := by
    apply List.filter_congr
    intro arg ha
    rw [h.isOption_eq ha, decide_not]
  refine ofArgs_eq_ok_iff.2 ⟨command, hc, ofRest_eq_ok_iff.2 ⟨?_, ?_, by rw [hfilter]⟩⟩
  · intro arg ha hoption
    exact h.options arg ha (isOption_iff.1 hoption)
  · obtain ⟨arg, ha, hfile⟩ := h.file
    apply List.ne_nil_of_mem (a := arg)
    rw [← isOption_iff] at hfile
    simp [ha, hfile]

/-- Each file alone, behind the same command and option, is a request too. -/
theorem usable_alone (hp : path ∈ others rest) : Usable name (alone rest path) := by
  obtain ⟨hpath, hother⟩ := mem_others.1 hp
  have hfile : ¬ "--".toList <+: path.toList := fun hoption => hother (h.options path hpath hoption)
  refine ⟨h.command, fun arg harg hoption => ?_, path, by simp [alone], hfile⟩
  rcases List.mem_append.1 harg with harg | harg
  · exact of_decide_eq_true (List.mem_filter.1 harg).2
  · rw [List.mem_singleton.1 harg] at hoption
    exact absurd hoption hfile

/-- It asks for the same, of this file. So a run with several files can be compared with the runs
with each of them. -/
theorem ofArgs_alone (hc : Command.ofName? name = some command) (hp : path ∈ others rest) :
    ofArgs (name :: alone rest path) =
      .ok ⟨command, !rest.contains noSpacedCalls, [path]⟩ := by
  have hother : path ≠ noSpacedCalls := (mem_others.1 hp).2
  have hpaths : others (alone rest path) = [path] := by
    simp [others, alone, List.filter_filter, hother]
  have hcontains : (alone rest path).contains noSpacedCalls =
      rest.contains noSpacedCalls := by
    rw [Bool.eq_iff_iff, List.contains_iff_mem, List.contains_iff_mem]
    simp [alone, hother.symm]
  rw [(h.usable_alone hp).ofArgs_eq hc, hpaths, hcontains]

end Usable

/-- **Arguments are refused exactly if they are unusable.** One direction goes through the five
ways; the other reads off a request that they are none of them. -/
theorem exists_error_iff {args : List String} :
    (∃ e, ofArgs args = .error e) ↔ Unusable args := by
  cases args with
  | nil => exact iff_of_true ⟨_, rfl⟩ .noCommand
  | cons name rest =>
    rw [← not_iff_not, not_unusable_iff]
    constructor
    · intro h
      obtain ⟨i, hi⟩ : ∃ i, ofArgs (name :: rest) = .ok i := by
        rcases ha : ofArgs (name :: rest) with e | i
        · exact absurd ⟨e, ha⟩ h
        · exact ⟨i, rfl⟩
      obtain ⟨command, hc, hrest⟩ := ofArgs_eq_ok_iff.1 hi
      obtain ⟨hoptions, hfiles, -⟩ := ofRest_eq_ok_iff.1 hrest
      obtain ⟨arg, hm⟩ := List.exists_mem_of_ne_nil _ hfiles
      obtain ⟨harg, hfile⟩ := List.mem_filter.1 hm
      refine ⟨?_, fun arg ha hoption => ?_, arg, harg, ?_⟩
      · rw [← Command.isSome_ofName?_iff, hc]
        rfl
      · exact hoptions arg ha (isOption_iff.2 hoption)
      · rw [← isOption_iff]
        simpa using hfile
    · rintro h ⟨e, he⟩
      obtain ⟨command, hc⟩ := h.exists_ofName?
      rw [h.ofArgs_eq hc] at he
      cases he

end Invocation

end Heddle
