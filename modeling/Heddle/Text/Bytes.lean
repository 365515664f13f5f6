/-!
# Texts measured in bytes

Places in a source are counted in bytes of its UTF-8 form, while texts are read character by
character. This module cuts a text at a byte count. A cut that would fall inside a character, or
behind the end, is refused; on a boundary between two characters it is exact.
-/

set_option autoImplicit false

namespace Heddle.Text

/-- How many bytes a text takes in UTF-8. It is a recursion of its own, and not the byte count of
the string, so that it can be reasoned about along with the list; the two agree by
`utf8ByteSize_ofList`. -/
def byteSize : List Char → Nat
  | [] => 0
  | c :: cs => c.utf8Size + byteSize cs

/-- The text behind its first `n` bytes, unless the cut falls inside a character or behind the
end. -/
def dropBytes? : Nat → List Char → Option (List Char)
  | 0, cs => some cs
  | _ + 1, [] => none
  | n + 1, c :: cs => if c.utf8Size ≤ n + 1 then dropBytes? (n + 1 - c.utf8Size) cs else none

/-- The first `n` bytes of a text, unless the cut falls inside a character or behind the end. -/
def takeBytes? : Nat → List Char → Option (List Char)
  | 0, _ => some []
  | _ + 1, [] => none
  | n + 1, c :: cs =>
    if c.utf8Size ≤ n + 1 then (takeBytes? (n + 1 - c.utf8Size) cs).map (c :: ·) else none

/-- The bytes from `start` up to `stop`, unless one of the cuts is refused or they are in the
wrong order. A refusal here is what the reader would call a fault. -/
def slice? (start stop : Nat) (cs : List Char) : Option (List Char) :=
  if start ≤ stop then (dropBytes? start cs).bind (takeBytes? (stop - start)) else none

@[simp] theorem byteSize_nil : byteSize [] = 0 := rfl

@[simp] theorem byteSize_cons (c : Char) (cs : List Char) :
    byteSize (c :: cs) = c.utf8Size + byteSize cs := rfl

@[simp] theorem byteSize_append (xs ys : List Char) :
    byteSize (xs ++ ys) = byteSize xs + byteSize ys := by
  induction xs with
  | nil => simp
  | cons c cs ih => simp [ih, Nat.add_assoc]

/-- Bytes are counted as core counts them. -/
theorem utf8ByteSize_ofList (cs : List Char) :
    (String.ofList cs).utf8ByteSize = byteSize cs := by
  induction cs with
  | nil => rfl
  | cons c cs ih =>
    have split : String.ofList (c :: cs) = String.singleton c ++ String.ofList cs := by
      rw [← String.toList_inj]
      simp
    simp [split, ih]

/-- A cut on a boundary gives the text behind it. -/
@[simp] theorem dropBytes?_byteSize (xs ys : List Char) :
    dropBytes? (byteSize xs) (xs ++ ys) = some ys := by
  induction xs with
  | nil => simp [dropBytes?]
  | cons c cs ih =>
    obtain ⟨n, hn⟩ := Nat.exists_eq_add_one_of_ne_zero (Nat.ne_of_gt c.utf8Size_pos)
    have size : byteSize (c :: cs) = n + byteSize cs + 1 := by simp [hn]; omega
    rw [size, List.cons_append, dropBytes?, if_pos (by omega)]
    rw [show n + byteSize cs + 1 - c.utf8Size = byteSize cs by omega, ih]

/-- A cut on a boundary gives the text in front of it. -/
@[simp] theorem takeBytes?_byteSize (xs ys : List Char) :
    takeBytes? (byteSize xs) (xs ++ ys) = some xs := by
  induction xs with
  | nil => simp [takeBytes?]
  | cons c cs ih =>
    obtain ⟨n, hn⟩ := Nat.exists_eq_add_one_of_ne_zero (Nat.ne_of_gt c.utf8Size_pos)
    have size : byteSize (c :: cs) = n + byteSize cs + 1 := by simp [hn]; omega
    rw [size, List.cons_append, takeBytes?, if_pos (by omega)]
    rw [show n + byteSize cs + 1 - c.utf8Size = byteSize cs by omega, ih, Option.map_some]

/-- Two cuts on boundaries give the text between them. This is how every slice of a proof is
evaluated: the text around it is written as three parts first. -/
theorem slice?_byteSize (xs ys zs : List Char) :
    slice? (byteSize xs) (byteSize (xs ++ ys)) (xs ++ ys ++ zs) = some ys := by
  simp [slice?]

end Heddle.Text
