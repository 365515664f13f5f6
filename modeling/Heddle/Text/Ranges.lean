/-!
# Sets of characters written as ranges

A property of characters that no short rule describes is kept as the list of the code point
ranges that have it, in rising order. Looking a character up then stops at the first range that
begins behind it.
-/

set_option autoImplicit false

namespace Heddle.Text

/-- Code point ranges, each with its first and its last member, in rising order. -/
abbrev Ranges := List (Nat × Nat)

/-- Whether a code point lies in one of the ranges. The list is searched from its beginning, and
left as soon as a range begins behind the code point. -/
def Ranges.has : Ranges → Nat → Bool
  | [], _ => false
  | (first, last) :: rest, n =>
    if n < first then false else n ≤ last || Ranges.has rest n

end Heddle.Text
