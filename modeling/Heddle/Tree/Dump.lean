import Heddle.Tree
import Heddle.Text.Quoted

/-!
# Trees as text

A dump has one line for each node and each piece of data, indented by two spaces for each level.
A node shows its name and where it begins, data its role and its text between quotes; trivia is
left out. Since a quoted text never holds a line break, a line of a dump is a line of text.

`Proofs.Tree.Dump` proves what a dump keeps and what it loses: two trees have one dump exactly
when they differ in nothing but trivia and what an extent says besides its first line and column.
-/

set_option autoImplicit false

namespace Heddle

/-- The indentation of a level. -/
def indentation (depth : Nat) : String :=
  String.ofList (List.replicate (2 * depth) ' ')

/-- The line of a node. -/
def headLine (depth : Nat) (kind : NodeKind) (location : Option Location) : String :=
  let place := location.map fun l => " @" ++ toString l.line ++ ":" ++ toString l.column
  indentation depth ++ kind.name ++ place.getD ""

/-- The line of a piece of data. -/
def dataLine (depth : Nat) (tag : DataTag) (text : String) : String :=
  indentation depth ++ tag.name ++ " " ++ Text.Quoted.encode text

/-- The lines of children at a level. -/
def Forest.lines (depth : Nat) : Forest → List String
  | nil => []
  | data tag text next =>
    (if tag.isTrivia then [] else [dataLine depth tag text]) ++ next.lines depth
  | node kind location children next =>
    headLine depth kind location :: children.lines (depth + 1) ++ next.lines depth

/-- The lines of a node. -/
def Node.lines (n : Node) : List String :=
  headLine 0 n.kind n.location :: n.children.lines 1

/-- The dump of a node: each line with a line break. -/
def Node.dump (n : Node) : String :=
  String.join (n.lines.map (· ++ "\n"))

end Heddle
