import Heddle.Proofs.Tree.Shift

/-!
# What is compared of two trees

Two trees can be the same but for what does not matter: where their nodes are, and something about
their data. What matters of a piece of data is up to a `View`, which says what stands for the piece
when trees are compared, or that nothing does. The `Forest.outline` of a forest is what is then left
of it.

Of the two views that are used here one keeps every piece of data but not the text of blanks
(`View.blankless`), and the other one leaves out blanks and comments altogether
(`View.significant`). In both a blank that combines two selectors stays a combinator.
-/

set_option autoImplicit false

namespace Heddle

/-- What stands for a piece of data when trees are compared. It is a forest and not a piece of
data, so that nothing can stand there. -/
abbrev View := DataTag → String → Forest

/-- The data is a blank: whitespace, or a combinator of nothing but blanks. A combinator may be a
sign, and it may have comments, which count. -/
def DataTag.isBlank (tag : DataTag) (text : String) : Bool :=
  tag == .whitespace || tag == .combinator && text.toList.all Text.isBlank

/-- Of a blank only its tag counts. -/
def View.blankless : View := fun tag text =>
  .ofData tag (if tag.isBlank text then "" else text)

/-- Blanks and comments do not count, and of a blank that combines two selectors only its tag. -/
def View.significant : View := fun tag text =>
  if tag.isTrivia then .nil else View.blankless tag text

namespace Forest

/-- The forest without places, data by data as it is viewed. -/
def outline (view : View) : Forest → Forest
  | nil => nil
  | data tag text next => view tag text ++ next.outline view
  | node kind _ children next => node kind none (children.outline view) (next.outline view)

variable (view : View)

@[simp] theorem outline_ofData (tag : DataTag) (text : String) :
    (ofData tag text).outline view = view tag text := append_nil _

@[simp] theorem outline_append (f g : Forest) :
    (f ++ g).outline view = f.outline view ++ g.outline view := by
  induction f with
  | nil => rfl
  | data tag text next ih => simp [outline, ih, append_assoc]
  | node kind location children next _ ih => simp [outline, ih]

/-- Places do not count. -/
@[simp] theorem outline_shift (d : Shift) (f : Forest) :
    (f.shift d).outline view = f.outline view := by
  induction f with
  | nil => rfl
  | data tag text next ih => simp [shift, outline, ih]
  | node kind location children next ihc ihn => simp [shift, outline, ihc, ihn]

end Forest

/-- The node without places, data by data as it is viewed. -/
def Node.outline (view : View) (n : Node) : Node := ⟨n.kind, none, n.children.outline view⟩

end Heddle
