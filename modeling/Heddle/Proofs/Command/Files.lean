import Mathlib
import Heddle.Proofs.Checked.Document
import Heddle.Proofs.Command.Arguments
import Heddle.Proofs.Document.Highlight
import Heddle.Proofs.Reading.Named

/-!
# One file after the other

A run treats its files in their order, and nothing of one file gets into what is printed for the
next: **what is printed for several files is what is printed for each of them alone**, and the exit
code only remembers whether something was wrong with any. Something is wrong with a file if it is
not there, is no text, or has errors (`Report.failed_ofFile_eq_false_iff`), whatever the command is
and whatever the file is called: a highlighter is told of the same errors as the builder of a tree,
and of the name of the file they only make mention.

`runProgram` says how a run ends. That a run in the world ends so, and reads what it needs and
nothing else, is told by a console that keeps a `Transcript` (`Console.run_recording`).
-/

set_option autoImplicit false

namespace Heddle

/-! ## Errors, to whomever they are told -/

/-- The complaint of an event. All else that is reported is of no interest here. -/
def Event.complaint? : Event → Option Diagnostic
  | error d => some d
  | start _ | data _ _ | location _ | stop _ | commit => none

theorem Builder.errors_feed (b : Builder) (es : List Event) :
    (b.feed es).1.errors = b.errors ++ es.filterMap Event.complaint? := by
  have hstep (b : Builder) (e : Event) :
      (b.step e).1.errors = b.errors ++ e.complaint?.toList := by
    obtain ⟨stack, pending, root, errors⟩ := b
    cases e with
    | commit => cases pending <;> cases stack <;> simp [step, onInnermost, Event.complaint?]
    | _ => cases stack <;> simp [step, onInnermost, Event.complaint?]
  induction es generalizing b with
  | nil => simp [feed]
  | cons e es ih =>
    rw [feed_cons, ih, hstep, List.append_assoc, List.filterMap_cons]
    cases e.complaint? <;> rfl

theorem Highlighter.errors_run (h : Highlighter) (es : List Event) :
    (h.run (es.map .event)).errors = h.errors ++ es.filterMap Event.complaint? := by
  have hstep (h : Highlighter) (e : Event) :
      (h.step e).1.errors = h.errors ++ e.complaint?.toList := by
    cases e <;> simp [step, Event.complaint?]
  induction es generalizing h with
  | nil => simp [run]
  | cons e es ih =>
    show ((h.step e).1.run (es.map .event)).errors = _
    rw [ih, hstep, List.append_assoc, List.filterMap_cons]
    cases e.complaint? <;> rfl

/-- A highlighter is told of the errors that a builder is told of. Both get the same events of one
reading, and each keeps the errors in their order. -/
theorem Highlighter.errors_ofSource (o : Options) (source : String) :
    (ofSource o source).errors = (Parsed.ofSource o source).errors := by
  rw [ofSource, feed_eq_run (feed_report _ _), errors_run]
  exact (Builder.errors_feed {} (readDocument o source).events).symm

/-! ## Reports -/

namespace Report

@[simp] theorem out_append (r s : Report) : (r ++ s).out = r.out ++ s.out := rfl

@[simp] theorem err_append (r s : Report) : (r ++ s).err = r.err ++ s.err := rfl

@[simp] theorem failed_append (r s : Report) : (r ++ s).failed = (r.failed || s.failed) := rfl

theorem code_exit_eq_zero_iff {r : Report} : r.exit.code = 0 ↔ r.failed = false := by
  cases h : r.failed <;> simp [exit, h]

theorem code_exit_le_one (r : Report) : r.exit.code ≤ 1 := by
  cases h : r.failed <;> simp [exit, h]

/-- Reports one behind the other. The texts are put together in the order of the paths, and
something was wrong if it was with any of them. -/
theorem foldl_append (report : String → Report) (paths : List String) (r : Report) :
    paths.foldl (fun r path => r ++ report path) r =
      ⟨r.out ++ String.join (paths.map (report · |>.out)),
        r.err ++ String.join (paths.map (report · |>.err)),
        r.failed || paths.any (report · |>.failed)⟩ := by
  induction paths generalizing r with
  | nil => simp
  | cons path paths ih => simp [ih, String.append_assoc, Bool.or_assoc]

/-- **Something is wrong with a source exactly if it has errors**, under any name. The name occurs
in the places of errors, and so in what is printed, but not in whether there are any. -/
theorem failed_ofSource (command : Command) (spacedCalls : Bool) (path source : String) :
    (ofSource command spacedCalls path source).failed =
      !(Parsed.ofSource { spacedCalls } source).errors.isEmpty := by
  have hnamed := Parsed.errors_named (some path) { spacedCalls } source
  cases command with
  | highlight =>
    show (!(Highlighter.ofSource _ source).errors.isEmpty) = _
    rw [Highlighter.errors_ofSource, hnamed, List.isEmpty_map]
  | tree =>
    show (!(Parsed.ofSource _ source).errors.isEmpty) = _
    rw [hnamed, List.isEmpty_map]
  | check =>
    show (!(Parsed.ofSource _ source).errors.isEmpty) = _
    rw [hnamed, List.isEmpty_map]

/-- With a file nothing is wrong if it is there, is a text, and has no errors. What the command is
plays no part. -/
theorem failed_ofFile_eq_false_iff {command : Command} {spacedCalls : Bool} {path : String}
    {contents : Contents} :
    (ofFile command spacedCalls path contents).failed = false ↔
      ∃ source, contents = .text source ∧
        (Parsed.ofSource { spacedCalls } source).errors = [] := by
  cases contents with
  | missing => simp [ofFile]
  | notText => simp [ofFile]
  | text source => simp [ofFile, failed_ofSource]

end Report

/-! ## Files -/

/-- What is on a disk: the bytes of the files that there are. It does not change while a program
runs. -/
abbrev Disk := String → Option ByteArray

/-- Bytes are a text if they are its UTF-8. There is not more than one such text. -/
theorem Contents.ofBytes_eq_text_iff {bytes : ByteArray} {source : String} :
    ofBytes bytes = text source ↔ bytes = source.toUTF8 := by
  rw [ofBytes, String.fromUTF8?]
  by_cases h : bytes.IsValidUTF8
  · rw [dif_pos h]
    constructor
    · rintro ⟨⟩
      rfl
    · rintro rfl
      rfl
  · rw [dif_neg h]
    constructor
    · rintro ⟨⟩
    · rintro rfl
      exact absurd source.isValidUTF8 h

namespace Disk

variable {disk : Disk} {path source : String}

/-- What there is under a path: nothing, bytes that are no text, or a text. -/
def contents (disk : Disk) (path : String) : Contents :=
  match disk path with
  | none => .missing
  | some bytes => .ofBytes bytes

theorem contents_eq_text_iff :
    disk.contents path = .text source ↔ disk path = some source.toUTF8 := by
  unfold contents
  cases disk path with
  | none => simp
  | some bytes => rw [Contents.ofBytes_eq_text_iff, Option.some.injEq]

end Disk

/-! ## Runs -/

section Runs

variable {files : String → Contents} {args args' : List String} {i : Invocation}

theorem runProgram_error {e : UsageError} (h : Invocation.ofArgs args = .error e) :
    runProgram files args = e.exit := by
  rw [runProgram, h]

/-- A run with a request prints what there is to print of each file, in their order. -/
theorem runProgram_ok (h : Invocation.ofArgs args = .ok i) :
    let report path := Report.ofFile i.command i.spacedCalls path (files path)
    runProgram files args =
      Report.exit ⟨String.join (i.paths.map (report · |>.out)),
        String.join (i.paths.map (report · |>.err)), i.paths.any (report · |>.failed)⟩ := by
  intro report
  rw [runProgram, h]
  show Report.exit (i.paths.foldl (fun r path => r ++ report path) {}) = _
  rw [Report.foldl_append]
  simp

/-- A run only goes by what its arguments ask for. -/
theorem runProgram_congr (h : Invocation.ofArgs args' = Invocation.ofArgs args) :
    runProgram files args' = runProgram files args := by
  rw [runProgram, runProgram, h]

/-- What a run did to the world: the files that were read, one by one, and what was printed. -/
structure Transcript where
  reads : List String := []
  out : String := ""
  err : String := ""
deriving DecidableEq, Repr

namespace Console

theorem run_congr {m : Type → Type} [Monad m] (c : Console m)
    (h : Invocation.ofArgs args' = Invocation.ofArgs args) : c.run args' = c.run args := by
  rw [run, run, h]

/-- A console that keeps a transcript. The files are given by a function, so reading one twice
gives the same, and what is read can be seen in the transcript only. -/
def recording (files : String → Contents) : Console (StateM Transcript) where
  read path := fun t => (files path, { t with reads := t.reads ++ [path] })
  print text := fun t => ((), { t with out := t.out ++ text })
  complain text := fun t => ((), { t with err := t.err ++ text })

/-- One round of the loop reads its file and adds what there is to print of it, whatever was
printed before. It is the step of `run_foldlM_treat`. -/
theorem run_treat (path : String) (t : Transcript) :
    let r := Report.ofFile i.command i.spacedCalls path (files path)
    ((recording files).treat i path).run t =
      (r.failed, ⟨t.reads ++ [path], t.out ++ r.out, t.err ++ r.err⟩) := rfl

/-- The loop over the files reads them in their order and adds the reports of all of them. The
induction is on the files, with any transcript to begin with, as each round begins with what the
earlier ones have left. -/
theorem run_foldlM_treat (paths : List String) (failed : Bool) (t : Transcript) :
    let report path := Report.ofFile i.command i.spacedCalls path (files path)
    (paths.foldlM (fun failed path => do
      let wrong ← (recording files).treat i path
      return failed || wrong) failed : StateM Transcript Bool).run t =
      (failed || paths.any (report · |>.failed),
        ⟨t.reads ++ paths, t.out ++ String.join (paths.map (report · |>.out)),
          t.err ++ String.join (paths.map (report · |>.err))⟩) := by
  intro report
  -- What was printed before may be anything: each file adds to it and looks at none of it.
  induction paths generalizing failed t with
  | nil =>
    show (failed, t) = _
    simp
  | cons path paths ih =>
    rw [List.foldlM_cons, bind_assoc, StateT.run_bind, run_treat]
    refine (ih (failed || (report path).failed)
      ⟨t.reads ++ [path], t.out ++ (report path).out, t.err ++ (report path).err⟩).trans ?_
    simp [String.append_assoc, Bool.or_assoc]

/-- Refused arguments are complained about, and nothing is read. -/
theorem run_recording_error {e : UsageError} (h : Invocation.ofArgs args = .error e) :
    ((recording files).run args).run {} = (e.exit.code, ⟨[], e.exit.out, e.exit.err⟩) := by
  rw [run, h]
  rfl

/-- **A run in the world prints what `runProgram` says, and ends as it says.** It reads the files
that are asked for, each in its turn and each once for every time it is named. -/
theorem run_recording_ok (h : Invocation.ofArgs args = .ok i) :
    let exit := runProgram files args
    ((recording files).run args).run {} = (exit.code, ⟨i.paths, exit.out, exit.err⟩) := by
  have hloop := @run_foldlM_treat files i i.paths false {}
  simp only [Bool.false_or, List.nil_append, String.empty_append] at hloop
  rw [run, h, runProgram_ok h, StateT.run_bind, hloop]
  rfl

/-- Either way nothing else is printed, and the run ends no other way. -/
theorem run_recording (files : String → Contents) (args : List String) :
    let exit := runProgram files args
    let run := ((recording files).run args).run {}
    run = (exit.code, ⟨run.2.reads, exit.out, exit.err⟩) := by
  rcases ha : Invocation.ofArgs args with e | i
  · rw [runProgram_error ha, run_recording_error ha]
  · rw [run_recording_ok ha]

end Console

end Runs

/-! ## Files alone and together -/

open Invocation

section Together

variable {name path : String} {rest : List String} {command : Command} {args : List String}
  (files : String → Contents)

/-- The exit code 2 is that of refused arguments, and of nothing else: a run that has begun ends
with 0 or 1. -/
theorem code_runProgram_eq_two_iff : (runProgram files args).code = 2 ↔ Unusable args := by
  rw [← exists_error_iff]
  rcases ha : ofArgs args with e | i
  · rw [runProgram_error ha]
    exact iff_of_true rfl ⟨e, rfl⟩
  · rw [runProgram_ok ha]
    refine iff_of_false (fun hcode => ?_) (fun ⟨e, he⟩ => nomatch he)
    exact absurd (hcode ▸ Report.code_exit_le_one _) (by decide)

/-- Refused arguments print nothing but a complaint, and nothing is read for them. -/
theorem Invocation.Unusable.run_recording (h : Unusable args) :
    (runProgram files args).out = "" ∧
      (((Console.recording files).run args).run {}).2.reads = [] := by
  obtain ⟨e, he⟩ := exists_error_iff.2 h
  rw [runProgram_error he, Console.run_recording_error he]
  exact ⟨rfl, rfl⟩

namespace Invocation.Usable

variable (h : Usable name rest)
include h

/-- What is printed for one file alone is what there is to print of it. -/
theorem runProgram_alone (hc : Command.ofName? name = some command) (hp : path ∈ others rest) :
    runProgram files (name :: alone rest path) =
      (Report.ofFile command (!rest.contains noSpacedCalls) path (files path)).exit := by
  rw [runProgram_ok (h.ofArgs_alone hc hp)]
  simp [Report.exit]

/-- A file alone ends well if it is a text without errors. The other arguments matter only by
whether the option is among them. -/
theorem code_alone_eq_zero_iff (hp : path ∈ others rest) :
    (runProgram files (name :: alone rest path)).code = 0 ↔
      ∃ source, files path = .text source ∧
        (Parsed.ofSource { spacedCalls := noSpacedCalls ∉ rest } source).errors = [] := by
  obtain ⟨command, hc⟩ := h.exists_ofName?
  rw [h.runProgram_alone files hc hp, Report.code_exit_eq_zero_iff,
    Report.failed_ofFile_eq_false_iff, List.contains_eq_mem, ← decide_not]

/-- **What is printed for several files is what is printed for each alone, and the run ends well
if each does.** The runs with one file are there as a function of the path, so that a file that is
named twice is treated twice. -/
theorem runProgram_eq :
    let paths := others rest
    let exitOf path := runProgram files (name :: alone rest path)
    let exit := runProgram files (name :: rest)
    exit.out = String.join (paths.map (exitOf · |>.out)) ∧
      exit.err = String.join (paths.map (exitOf · |>.err)) ∧
      exit.code ≤ 1 ∧ (exit.code = 0 ↔ ∀ path ∈ paths, (exitOf path).code = 0) := by
  intro paths exitOf exit
  obtain ⟨command, hc⟩ := h.exists_ofName?
  have halone : ∀ path ∈ paths, exitOf path = _ := fun path => h.runProgram_alone files hc
  have hexit : exit = _ := runProgram_ok (h.ofArgs_eq hc)
  rw [hexit]
  refine ⟨?_, ?_, Report.code_exit_le_one _, ?_⟩
  · refine congrArg String.join (List.map_congr_left fun path hp => ?_)
    rw [halone path hp]
    rfl
  · refine congrArg String.join (List.map_congr_left fun path hp => ?_)
    rw [halone path hp]
    rfl
  · rw [Report.code_exit_eq_zero_iff, List.any_eq_false]
    refine forall₂_congr fun path hp => ?_
    rw [halone path hp, Report.code_exit_eq_zero_iff, Bool.not_eq_true]

/-- What is read are the files, in their order. -/
theorem run_recording :
    let exit := runProgram files (name :: rest)
    ((Console.recording files).run (name :: rest)).run {} =
      (exit.code, ⟨others rest, exit.out, exit.err⟩) := by
  obtain ⟨command, hc⟩ := h.exists_ofName?
  exact Console.run_recording_ok (h.ofArgs_eq hc)

end Invocation.Usable

end Together

/-- **A run with several files prints what the runs with each of them print**, and ends well if all
of them do. The exit code is 2, with nothing read and nothing on the standard output, exactly if the
arguments ask for nothing that can be done. Otherwise what is printed for the files, in the order of
the arguments, is what is printed for each of them alone, behind the same command and option; the
exit code is 0 if every file is there, is the UTF-8 of a text, and this text has no errors when it
is read under the option, and 1 if not. Where the option stands, and how often, changes nothing. A
run in the world does what is said of `runProgram`, and reads each of the files in its turn. -/
theorem runProgram_folds (disk : Disk) (args : List String) :
    let files := disk.contents
    let exit := runProgram files args
    let run := ((Console.recording files).run args).run {}
    run = (exit.code, ⟨run.2.reads, exit.out, exit.err⟩) ∧
    (exit.code = 2 ↔ Unusable args) ∧
    (Unusable args → exit.out = "" ∧ run.2.reads = []) ∧
    ∀ name rest, args = name :: rest →
      (∀ rest', SameRequest rest rest' →
        runProgram files (name :: rest') = exit ∧
        ((Console.recording files).run (name :: rest')).run {} = run) ∧
      (¬ Unusable args →
        let paths := others rest
        let exitOf path := runProgram files (name :: alone rest path)
        run.2.reads = paths ∧
        exit.out = String.join (paths.map (exitOf · |>.out)) ∧
        exit.err = String.join (paths.map (exitOf · |>.err)) ∧
        (exit.code = 0 ∨ exit.code = 1) ∧
        (exit.code = 0 ↔ ∀ path ∈ paths, ∃ source, disk path = some source.toUTF8 ∧
          (Parsed.ofSource { spacedCalls := noSpacedCalls ∉ rest } source).errors = [])) := by
  intro files exit run
  refine ⟨Console.run_recording files args, code_runProgram_eq_two_iff files,
    fun h => h.run_recording files, ?_⟩
  rintro name rest rfl
  refine ⟨fun rest' h => ?_, fun h => ?_⟩
  · have hargs := ofArgs_congr h name
    exact ⟨runProgram_congr hargs, by rw [Console.run_congr _ hargs]⟩
  · have hu := not_unusable_iff.1 h
    obtain ⟨hout, herr, hle, hcode⟩ := hu.runProgram_eq files
    have hrun : run = _ := hu.run_recording files
    refine ⟨by rw [hrun], hout, herr, Nat.le_one_iff_eq_zero_or_eq_one.1 hle, hcode.trans ?_⟩
    refine forall₂_congr fun path hp => (hu.code_alone_eq_zero_iff files hp).trans ?_
    exact exists_congr fun source => and_congr_left' Disk.contents_eq_text_iff

/-- Two files that are there and one that is not, with the option among them; the two without it,
where one has a call without parentheses; and an option that there is not. -/
theorem runProgram_folds_missing :
    let disk : Disk := fun path =>
      if path = "a" then some "x = 1;".toUTF8 else if path = "b" then some "f 1;".toUTF8 else none
    let files := disk.contents
    let rest := ["a", noSpacedCalls, "b", "c"]
    let rest' := ["a", "b", noSpacedCalls, "c", noSpacedCalls]
    ¬ Unusable ("check" :: rest) ∧ SameRequest rest rest' ∧
    (runProgram files ("check" :: rest)).err = String.join
      (["a", "b", "c"].map fun path => (runProgram files ["check", noSpacedCalls, path]).err) ∧
    (runProgram files ("check" :: rest)).code = 1 ∧
    runProgram files ("check" :: rest') = runProgram files ("check" :: rest) ∧
    ¬ Unusable ["check", "a", "b"] ∧ (runProgram files ["check", "a", "b"]).code = 0 ∧
    Unusable ["check", "a", "--fast"] ∧ (runProgram files ["check", "a", "--fast"]).code = 2 := by
  intro disk files rest rest'
  have husable : ¬ Unusable ("check" :: rest) :=
    not_unusable_iff.2 ⟨by decide, by decide, "a", by decide, by decide⟩
  have hsame : SameRequest rest rest' := ⟨by decide, by decide⟩
  have hunusable : Unusable ["check", "a", "--fast"] :=
    .unknownOption "check" (by decide : "--fast" ∈ ["a", "--fast"]) (by decide) (by decide)
  have hfew : ¬ Unusable ["check", "a", "b"] :=
    not_unusable_iff.2 ⟨by decide, by decide, "a", by decide, by decide⟩
  obtain ⟨-, -, -, hall⟩ := runProgram_folds disk ("check" :: rest)
  obtain ⟨hmoved, hfold⟩ := hall _ _ rfl
  obtain ⟨-, -, herr, hcode, hzero⟩ := hfold husable
  obtain ⟨-, -, -, hfewAll⟩ := runProgram_folds disk ["check", "a", "b"]
  obtain ⟨-, -, -, -, hfewZero⟩ := (hfewAll _ _ rfl).2 hfew
  refine ⟨husable, hsame, herr, hcode.resolve_left fun h0 => ?_, (hmoved rest' hsame).1, hfew,
    hfewZero.2 ?_, hunusable, (runProgram_folds disk _).2.1.2 hunusable⟩
  · obtain ⟨source, hc, -⟩ := hzero.1 h0 "c" (by decide)
    exact absurd hc (by simp [disk])
  · intro path hp
    have hpaths : others ["a", "b"] = ["a", "b"] := by decide
    rw [hpaths, List.mem_cons, List.mem_singleton] at hp
    rcases hp with rfl | rfl
    · exact ⟨"x = 1;", rfl, by cbv⟩
    · exact ⟨"f 1;", rfl, by cbv⟩

end Heddle
