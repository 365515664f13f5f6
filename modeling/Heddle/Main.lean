import Heddle.Command

/-!
# The program

The run of `Heddle.Command` in the world: it reads the files that the arguments name and prints to
the standard output and the standard error.
-/

set_option autoImplicit false

namespace Heddle

/-- What there is under a path. A path that cannot be read for whatever reason counts as missing,
and bytes that are no text are told apart from it by `Contents.ofBytes`. -/
def readContents (path : String) : IO Contents := do
  try
    return Contents.ofBytes (← IO.FS.readBinFile path)
  catch _ =>
    return .missing

/-- The console that the program was started from. -/
def Console.standard : Console IO where
  read := readContents
  print text := IO.print text
  complain text := IO.eprint text

end Heddle

open Heddle

def main (args : List String) : IO UInt32 := do
  return (← Console.standard.run args).toUInt32
