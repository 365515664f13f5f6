import Heddle.Tree.Builder

/-!
# The log

For those who want to watch. A reading leaves one record for each statement that had to be
skipped, and a last one with the size of the source and the number of its errors; a builder leaves
one for each event that did not fit.
-/

set_option autoImplicit false

namespace Heddle

/-- How much a record matters. -/
inductive LogLevel where
  | debug | warn
deriving DecidableEq, Repr

def LogLevel.name : LogLevel → String
  | .debug => "DEBUG"
  | .warn => "WARN"

/-- A record of the log. -/
structure LogRecord where
  level : LogLevel
  message : String
deriving DecidableEq, Repr

/-- The record of an event that did not fit. -/
def Warning.record (w : Warning) : LogRecord := ⟨.warn, w.message⟩

/-- The records of a reading, in order: one for each statement that was skipped, and a last one.
An error inside a placeholder is counted in the last but has no record of its own, since nothing
was skipped for it. -/
def readingLog (o : Options) (source : String) : List LogRecord :=
  let errors := (readDocument o source).errors
  let skips := errors.filterMap fun (scope, d) =>
    match scope with
    | .statement => some ⟨.debug, "recovering from: " ++ d.render⟩
    | .placeholder => none
  skips ++ [⟨.debug, "parsed " ++ toString source.utf8ByteSize ++ " bytes with " ++
    toString errors.length ++ " error(s)"⟩]

end Heddle
