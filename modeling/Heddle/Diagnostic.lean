import Heddle.Position

/-!
# Locations and diagnostics

Where a finished construct stands in its source, and what is wrong with one that could not be
finished, each with the line of text under which people get to see it.
-/

set_option autoImplicit false

namespace Heddle

/-- The extent of a finished construct. The length leaves out trivia at the end, so two constructs
side by side need not meet. -/
structure Location where
  file : Option String
  line : Nat
  column : Nat
  /-- The first byte. -/
  offset : Nat
  /-- How many bytes, without what is trivia at the end. -/
  length : Nat
deriving DecidableEq, Repr

/-- The byte just behind the construct. -/
def Location.stop (l : Location) : Nat := l.offset + l.length

/-- The extent in one line, for example `page:3:7 [41..52]`. -/
def Location.render (l : Location) : String :=
  (l.file.map (· ++ ":")).getD "" ++ toString l.line ++ ":" ++ toString l.column ++
    " [" ++ toString l.offset ++ ".." ++ toString l.stop ++ "]"

/-- A complaint about a source. -/
structure Diagnostic where
  message : String
  file : Option String
  line : Nat
  column : Nat
deriving DecidableEq, Repr

/-- The complaint in one line, for example `page: nesting too deep at line 3, column 7`. -/
def Diagnostic.render (d : Diagnostic) : String :=
  (d.file.map (· ++ ": ")).getD "" ++ d.message ++ " at line " ++ toString d.line ++
    ", column " ++ toString d.column

end Heddle
