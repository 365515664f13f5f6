import Heddle.Tree

/-!
# Trees without places

What a text is read as does not depend on where the text stands, but for the extents of the nodes.
A tree without extents is therefore something to compare a reading with that can be written down
without counting characters. **Such a tree determines its text**, which is what its data spells,
and how deep a reading of that text has to go.

What is printed is compared with such trees: a printer and a tree without extents are two
functions of the same value, and reading back says that they agree.
-/

set_option autoImplicit false

namespace Heddle

namespace Forest

/-- The same children without their extents. -/
def unplaced : Forest → Forest
  | nil => nil
  | data tag text next => data tag text next.unplaced
  | node kind _ children next => node kind none children.unplaced next.unplaced

/-- The characters of everything in the forest. -/
def chars (f : Forest) : List Char := f.text.toList

/-- How deep the nodes nest. A reading of the text needs as many levels, so this is what the limit
on nesting is compared with. -/
def height : Forest → Nat
  | nil => 0
  | data _ _ next => next.height
  | node _ _ children next => max (children.height + 1) next.height

@[simp] theorem unplaced_append (f g : Forest) : (f ++ g).unplaced = f.unplaced ++ g.unplaced := by
  induction f with
  | nil => rfl
  | data tag text next ih => simp [unplaced, ih]
  | node kind location children next _ ih => simp [unplaced, ih]

@[simp] theorem chars_nil : nil.chars = [] := rfl

@[simp] theorem chars_data (tag : DataTag) (s : String) (next : Forest) :
    (data tag s next).chars = s.toList ++ next.chars := by
  simp [chars, text]

@[simp] theorem chars_ofData (tag : DataTag) (s : String) : (ofData tag s).chars = s.toList := by
  simp [ofData]

@[simp] theorem chars_node (kind : NodeKind) (location : Option Location)
    (children next : Forest) :
    (node kind location children next).chars = children.chars ++ next.chars := by
  simp [chars, text]

@[simp] theorem chars_append (f g : Forest) : (f ++ g).chars = f.chars ++ g.chars := by
  simp [chars]

@[simp] theorem height_append (f g : Forest) : (f ++ g).height = max f.height g.height := by
  induction f with
  | nil => simp [height]
  | data tag text next ih => simp [height, ih]
  | node kind location children next _ ih => simp [height, ih, Nat.max_assoc]

/-- A height is bounded part by part. -/
theorem height_append_le {f g : Forest} {n : Nat} :
    (f ++ g).height ≤ n ↔ f.height ≤ n ∧ g.height ≤ n := by
  rw [height_append, Nat.max_le]

/-- A node is one higher than its children. -/
theorem height_node_le {kind : NodeKind} {location : Option Location} {f g : Forest} {n : Nat} :
    (node kind location f g).height ≤ n ↔ f.height + 1 ≤ n ∧ g.height ≤ n :=
  Nat.max_le

/-- Nodes nest as deep without extents. -/
theorem height_unplaced (f : Forest) : f.unplaced.height = f.height := by
  induction f with
  | nil => rfl
  | data tag text next ih => exact ih
  | node kind location children next ihc ih => simp only [unplaced, height, ihc, ih]

end Forest

/-- The same node without extents. -/
def Node.unplaced (n : Node) : Node := ⟨n.kind, none, n.children.unplaced⟩

/-- The nodes among children are the same without extents, so the only statement of a document can
be looked for in either tree. -/
theorem Node.nodes_unplaced (n : Node) : n.unplaced.nodes = n.nodes.map (·.unplaced) := by
  obtain ⟨kind, location, children⟩ := n
  unfold nodes Node.unplaced
  simp only
  induction children with
  | nil => rfl
  | data tag text next ih => exact ih
  | node kind location children next _ ih => exact congrArg (_ :: ·) ih

end Heddle
