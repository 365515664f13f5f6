/-!
# Fitting a text into a width

Widths are counted in characters. A text that is too wide is left as it is, except where it is to
be cut.
-/

set_option autoImplicit false

namespace Heddle.Text

/-- What is done with a text and a width. -/
inductive Fit where
  | left | right | center
  /-- No more than so many characters. -/
  | cut
deriving DecidableEq, Repr

/-- That many spaces. -/
def spaces (n : Nat) : String := String.ofList (List.replicate n ' ')

/-- Fits a text into a width. Of an odd number of spaces around a centered text the odd one goes to
the right. -/
def Fit.apply (fit : Fit) (width : Nat) (s : String) : String :=
  let free := width - s.length
  match fit with
  | .left => s ++ spaces free
  | .right => spaces free ++ s
  | .center => spaces (free / 2) ++ s ++ spaces (free - free / 2)
  | .cut => String.ofList (s.toList.take width)

end Heddle.Text
