import Heddle.Tree.Builder
import Heddle.Tree.Dump
import Heddle.Highlight

/-!
# The command line

The program takes a command and files, and treats the files one after the other: what it prints
for several files is what it prints for each. A file that cannot be read or has errors does not
keep it from the next one; only the exit code remembers.

How a run ends is a function of the arguments and of what there is to read (`runProgram`). The run
itself asks a `Console` for each file and hands it each text that is to be printed, so the order of
what it does in the world is fixed here, too (`Console.run`).

`Proofs.Command` proves the two descriptions to agree for a console that records what it is asked
to print.
-/

set_option autoImplicit false

namespace Heddle

/-- What is done with each file. -/
inductive Command where
  | check | tree | highlight
deriving DecidableEq, Repr

/-- The command of a name. -/
def Command.ofName? : String → Option Command
  | "check" => some check
  | "tree" => some tree
  | "highlight" => some highlight
  | _ => none

/-- Arguments that ask for nothing the program can do. -/
inductive UsageError where
  /-- No command, or a call for help. -/
  | help
  | unknownCommand (name : String)
  | unknownOption (name : String)
  | noFiles
deriving DecidableEq, Repr

/-- The help text, as it is printed for a missing command, for `--help` and for `-h`. -/
def usage : String :=
  String.join <| List.map (· ++ "\n")
    [ "Usage: weft <command> [files...]",
      "",
      "Commands:",
      "  check      Report syntax errors",
      "  tree       Print the syntax tree",
      "  highlight  Print the source as highlighted HTML",
      "",
      "Options:",
      "  --no-whitespace-calls  Reject calls written without parentheses",
      "",
      "Set RUST_LOG=debug (or trace) for parser diagnostics." ]

def UsageError.message : UsageError → String
  | .help => usage
  | .unknownCommand name => "Unknown command: " ++ name ++ "\n"
  | .unknownOption name => "Unknown option: " ++ name ++ "\n"
  | .noFiles => "Error: no files specified\n"

/-- Arguments that make sense. -/
structure Invocation where
  command : Command
  spacedCalls : Bool
  paths : List String
deriving DecidableEq, Repr

namespace Invocation

/-- The option that makes calls need their parentheses. -/
def noSpacedCalls : String := "--no-whitespace-calls"

/-- Whether an argument is an option rather than a file. -/
def isOption (arg : String) : Bool := arg.toList.take 2 == ['-', '-']

/-- The arguments behind the command. Options and files may stand in any order, and the first
unknown option is what is complained about. -/
def ofRest (command : Command) (args : List String) : Except UsageError Invocation :=
  match args.find? (fun arg => isOption arg && arg != noSpacedCalls) with
  | some name => .error (.unknownOption name)
  | none =>
    match args.filter (!isOption ·) with
    | [] => .error .noFiles
    | paths => .ok ⟨command, !args.contains noSpacedCalls, paths⟩

/-- What arguments ask for. -/
def ofArgs : List String → Except UsageError Invocation
  | [] => .error .help
  | name :: args =>
    if name = "--help" || name = "-h" then .error .help
    else
      match Command.ofName? name with
      | none => .error (.unknownCommand name)
      | some command => ofRest command args

end Invocation

/-- What there is under the path of a file. -/
inductive Contents where
  | missing
  /-- Bytes that are no UTF-8. -/
  | notText
  | text (source : String)

/-- The contents that bytes make. -/
def Contents.ofBytes (bytes : ByteArray) : Contents :=
  match String.fromUTF8? bytes with
  | some source => text source
  | none => notText

/-- What the program prints, and whether something was wrong. -/
structure Report where
  out : String := ""
  err : String := ""
  failed : Bool := false
deriving DecidableEq, Repr

namespace Report

/-- One report behind the other. -/
def append (r s : Report) : Report := ⟨r.out ++ s.out, r.err ++ s.err, r.failed || s.failed⟩

instance : Append Report := ⟨append⟩

/-- Errors, a line each. -/
def errorLines (errors : List Diagnostic) : String :=
  String.join (errors.map (·.render ++ "\n"))

/-- What the program prints for the source of a file. Errors go to the standard error whatever the
command is, in the form of `Diagnostic.render`, and any of them makes the file count as failed. -/
def ofSource (command : Command) (spacedCalls : Bool) (path source : String) : Report :=
  let o : Options := { file := some path, spacedCalls }
  match command with
  | .highlight =>
    let h := Highlighter.ofSource o source
    ⟨h.html ++ "\n", errorLines h.errors, !h.errors.isEmpty⟩
  | .tree =>
    let p := Parsed.ofSource o source
    ⟨(p.root.map (·.dump)).getD "", errorLines p.errors, !p.errors.isEmpty⟩
  | .check =>
    let p := Parsed.ofSource o source
    ⟨"", (if p.errors.isEmpty then path ++ ": ok\n" else "") ++ errorLines p.errors,
      !p.errors.isEmpty⟩

/-- What the program prints for a file. -/
def ofFile (command : Command) (spacedCalls : Bool) (path : String) : Contents → Report
  | .missing => ⟨"", path ++ ": No such file or directory (os error 2)\n", true⟩
  | .notText => ⟨"", path ++ ": stream did not contain valid UTF-8\n", true⟩
  | .text source => ofSource command spacedCalls path source

end Report

/-- How a run of the program ends. -/
structure Exit where
  code : Nat
  out : String
  err : String
deriving DecidableEq, Repr

/-- The end of a run whose arguments make no sense: nothing is read. -/
def UsageError.exit (e : UsageError) : Exit := ⟨2, "", e.message⟩

/-- The end of a run that treated its files. -/
def Report.exit (r : Report) : Exit := ⟨if r.failed then 1 else 0, r.out, r.err⟩

/-- A whole run, `files` being what there is to read. -/
def runProgram (files : String → Contents) (args : List String) : Exit :=
  match Invocation.ofArgs args with
  | .error e => e.exit
  | .ok i =>
    (i.paths.foldl (fun r path => r ++ Report.ofFile i.command i.spacedCalls path (files path))
      ({} : Report)).exit

/-- What a run needs of the world: something to read files with, and two places to print to. -/
structure Console (m : Type → Type) where
  read : String → m Contents
  print : String → m Unit
  complain : String → m Unit

namespace Console

variable {m : Type → Type} [Monad m] (c : Console m)

/-- Reads a file, prints what there is to print of it, and tells whether something was wrong. -/
def treat (i : Invocation) (path : String) : m Bool := do
  let r := Report.ofFile i.command i.spacedCalls path (← c.read path)
  c.print r.out
  c.complain r.err
  return r.failed

/-- A run in the world, up to its exit code. The files are treated one by one, so that each is
printed before the next is read; a file that fails does not end the fold. -/
def run (args : List String) : m Nat := do
  match Invocation.ofArgs args with
  | .error e =>
    c.complain e.exit.err
    return e.exit.code
  | .ok i =>
    let failed ← i.paths.foldlM (fun failed path => do
      let wrong ← c.treat i path
      return failed || wrong) false
    return if failed then 1 else 0

end Console

end Heddle
