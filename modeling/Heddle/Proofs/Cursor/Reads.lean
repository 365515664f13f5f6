import Heddle.Proofs.Checked.Cursor
import Heddle.Proofs.Cursor.Marker

/-!
# One read under any limit

A limit can be any number. It can lie inside a character or in front of the place from where a
cursor reads, and then nothing can be read. All that a read needs is that its own place lies between
two characters (`Position.StandsIn`): **then it cuts out nothing that is not there and counts
nothing too far, it moves strictly forward and not past the limit or it stays, and it stays only
where the limit leaves nothing to be read** (`Cursor.reads`).

A look past trivia is looks one behind the other, of which each but the last answers with trivia;
`Cursor.lookSignificant_induction` is the induction along them.
-/

set_option autoImplicit false

namespace Heddle

open Text Checked

namespace Text

/-! ## Cuts -/

/-- A cut that is not refused is made between two characters. -/
theorem dropBytes?_eq_some {n : Nat} {cs ys : List Char} (h : dropBytes? n cs = some ys) :
    ∃ xs, cs = xs ++ ys ∧ n = byteSize xs := by
  fun_induction dropBytes? n cs with
  | case1 cs =>
    cases h
    exact ⟨[], rfl, rfl⟩
  | case2 => cases h
  | case3 n c cs hle ih =>
    obtain ⟨xs, rfl, hn⟩ := ih h
    refine ⟨c :: xs, rfl, ?_⟩
    rw [byteSize_cons]
    omega
  | case4 => cases h

theorem takeBytes?_eq_some {n : Nat} {cs xs : List Char} (h : takeBytes? n cs = some xs) :
    ∃ ys, cs = xs ++ ys ∧ n = byteSize xs := by
  fun_induction takeBytes? n cs generalizing xs with
  | case1 cs =>
    cases h
    exact ⟨cs, rfl, rfl⟩
  | case2 => cases h
  | case3 n c cs hle ih =>
    obtain ⟨xs, hxs, rfl⟩ := Option.map_eq_some_iff.1 h
    obtain ⟨ys, rfl, hn⟩ := ih hxs
    refine ⟨ys, rfl, ?_⟩
    rw [byteSize_cons]
    omega
  | case4 => cases h

/-- A cut is not refused if and only if it is made between two characters. A jump is refused by
the cut that it would make, so this says which jumps are. -/
theorem isNone_dropBytes? {n : Nat} {cs : List Char} :
    (dropBytes? n cs).isNone = true ↔ ¬ Boundary 0 cs n := by
  rw [Option.isNone_iff_eq_none, ← not_iff_not, not_not, ← ne_eq, Option.ne_none_iff_exists']
  constructor
  · rintro ⟨ys, h⟩
    obtain ⟨xs, rfl, rfl⟩ := dropBytes?_eq_some h
    exact ⟨xs, ys, rfl, (Nat.zero_add _).symm⟩
  · rintro ⟨xs, ys, rfl, rfl⟩
    rw [Nat.zero_add]
    exact ⟨ys, dropBytes?_byteSize xs ys⟩

end Text

/-- The place lies between two characters of the source, and what is behind it can be counted.
Line and column need not be those of the byte: a jump may bring any of them along, as long as they
are small enough. -/
def Position.StandsIn (source : List Char) (p : Position) : Prop :=
  ∃ passed ahead, source = passed ++ ahead ∧ p.byte = byteSize passed ∧ p.Counts ahead

theorem Position.StandsIn.boundary {source : List Char} {p : Position} (h : p.StandsIn source) :
    Boundary 0 source p.byte := by
  obtain ⟨passed, ahead, rfl, hp, -⟩ := h
  exact ⟨passed, ahead, rfl, by rw [hp, Nat.zero_add]⟩

/-- Looks at one token after the other until one is no trivia, at most at `rounds` of them. The
cursor of `Heddle.Cursor` does it in one scan. -/
def Checked.lookSignificant : Nat → Cursor → Checked (Option Token × Cursor)
  | 0, _ => .error .endless
  | rounds + 1, c => do
    let (t, after) ← look c
    if t.any (·.kind.isTrivia) then lookSignificant rounds after else return (t, after)

namespace Cursor

variable {c : Cursor}

/-! ## What can be read -/

/-- A cursor faces some text, or its limit leaves nothing to be read. The limit does so in two
ways: it is not ahead of the cursor, or it is inside a character and no piece can be cut at it. -/
theorem faces_or_ends (h : c.place.StandsIn c.source) :
    (∃ passed ahead beyond, c.source = passed ++ ahead ++ beyond ∧ ahead ≠ [] ∧
      c.Faces passed ahead ∧ c.place.Counts (ahead ++ beyond)) ∨
      c.readable = [] ∧ (c.bound ≤ c.place.byte ∨ ¬ Boundary 0 c.source c.bound) := by
  obtain ⟨passed, ahead, hs, hp, hcounts⟩ := h
  rw [readable, slice?]
  -- A limit that is not ahead leaves no piece, whichever way the cut is refused.
  by_cases hle : c.bound ≤ c.place.byte
  · refine .inr ⟨?_, .inl hle⟩
    rw [Nat.sub_eq_zero_of_le hle]
    split
    · cases dropBytes? c.place.byte c.source with
      | none => rfl
      | some ys => rw [Option.bind_some, takeBytes?]; rfl
    · rfl
  · have hlt := Nat.lt_of_not_le hle
    rw [if_pos hlt.le, hs, hp, dropBytes?_byteSize, Option.bind_some]
    cases htake : takeBytes? (c.bound - byteSize passed) ahead with
    | some seen =>
      obtain ⟨beyond, rfl, hseen⟩ := takeBytes?_eq_some htake
      rw [hp] at hlt
      refine .inl ⟨passed, seen, beyond, (List.append_assoc _ _ _).symm, ?_,
        ⟨⟨beyond, ?_⟩, hp, ?_⟩, hcounts⟩
      · rintro rfl
        rw [byteSize_nil] at hseen
        omega
      · rw [hs, List.append_assoc]
      · rw [byteSize_append, ← hseen]
        omega
    | none =>
      refine .inr ⟨rfl, .inr fun hb => ?_⟩
      -- A limit between two characters would have been no reason to refuse the cut.
      obtain ⟨mid, zs, rfl, hbound⟩ := hb.after (by rw [Nat.zero_add, ← hp]; exact hlt.le)
      rw [hbound, Nat.zero_add, byteSize_append, Nat.add_sub_cancel_left, takeBytes?_byteSize]
        at htake
      cases htake

/-- What a read does from where a cursor stands: it is possible in checked steps, it goes strictly
forward and not past the limit if it finds a token, it stays where it is if it finds none, and
finds none exactly if the limit leaves nothing. Behind it the cursor stands between two characters
again. -/
structure Reads (c : Cursor) : Prop where
  checked : Checked.step c = .ok c.step
  forward : ∀ t, c.step.1 = some t →
    c.place.byte < c.step.2.place.byte ∧ c.step.2.place.byte ≤ c.bound
  none_iff : c.step.1 = none ↔ c.bound ≤ c.place.byte ∨ ¬ Boundary 0 c.source c.bound
  still : c.step.1 = none → c.step.2 = c
  stands : c.step.2.place.StandsIn c.source

/-- In front of a text a read takes the first token of it. `beyond` is what the limit hides. -/
theorem reads_of_faces {passed ahead beyond : List Char}
    (hs : c.source = passed ++ ahead ++ beyond) (hn : ahead ≠ []) (hf : c.Faces passed ahead)
    (hcounts : c.place.Counts (ahead ++ beyond)) : c.Reads := by
  obtain ⟨t, rest, hread⟩ := Token.exists_read?_of_ne_nil c.preferHex c.place hn
  obtain ⟨hp, ht, rfl⟩ := Token.read?_eq_some hread
  have hstep := hf.step_cons hread
  have hbound := hf.bound
  have hbyte := hf.byte
  have hpos : 0 < byteSize t.chars := by
    obtain ⟨x, xs, hx⟩ := List.exists_cons_of_ne_nil ht
    have := x.utf8Size_pos
    rw [hx, byteSize_cons]
    omega
  have hbehind : t.behind.byte = c.place.byte + byteSize t.chars := by
    rw [Token.behind, Position.byte_past, hp]
  rw [byteSize_append, byteSize_append] at hbound
  have hcut : Boundary 0 c.source c.bound :=
    ⟨passed ++ (t.chars ++ rest), beyond, hs, by rw [hf.bound, Nat.zero_add]⟩
  -- The step takes `t`. What is left to show of it: it goes forward, it gives something unless
  -- the limit hides the token, and it stands between two characters again.
  refine ⟨step_eq hf hcounts.front, fun u _ => ?_, ?_, ?_, ?_⟩
  · rw [hstep]
    simp only
    omega
  · -- The limit is ahead and between two characters, and there is a token.
    rw [hstep]
    constructor
    · intro hnone
      cases hnone
    · rintro (hle | hno)
      · omega
      · exact absurd hcut hno
  · rw [hstep]
    intro hnone
    cases hnone
  · rw [hstep]
    refine ⟨passed ++ t.chars, rest ++ beyond, ?_, ?_, ?_⟩
    · rw [hs]
      simp only [List.append_assoc]
    · rw [byteSize_append, ← hbyte]
      exact hbehind
    · rw [List.append_assoc] at hcounts
      rw [Token.behind, hp]
      exact hcounts.past

/-- Where the limit leaves nothing to be read, a read finds nothing and moves nothing. -/
theorem reads_of_ends (h : c.place.StandsIn c.source) (hr : c.readable = [])
    (hends : c.bound ≤ c.place.byte ∨ ¬ Boundary 0 c.source c.bound) : c.Reads := by
  have hstep : c.step = (none, c) := by
    rw [step, hr]
    rfl
  refine ⟨?_, ?_, ?_, ?_, ?_⟩
  · rw [Checked.step, hr, hstep]
  · rw [hstep]
    intro t ht
    cases ht
  · rw [hstep]
    exact ⟨fun _ => hends, fun _ => rfl⟩
  · rw [hstep]
    exact fun _ => rfl
  · rw [hstep]
    exact h

/-- **A read is safe wherever a cursor stands.** Between two characters there is a text to be read
or there is not, and the limit decides which. -/
theorem reads (h : c.place.StandsIn c.source) : c.Reads := by
  rcases faces_or_ends h with ⟨passed, ahead, beyond, hs, hn, hf, hcounts⟩ | ⟨hr, hends⟩
  · exact reads_of_faces hs hn hf hcounts
  · exact reads_of_ends h hr hends

/-! ## Looks past trivia -/

/-- A cursor that looks past trivia looks at one token after the other. Where the limit leaves
nothing this holds as well, since then the first look is the last. -/
theorem lookSignificant_eq (h : c.place.StandsIn c.source) :
    c.lookSignificant =
      if c.look.1.any (·.kind.isTrivia) then c.look.2.lookSignificant else c.look := by
  rcases faces_or_ends h with ⟨passed, ahead, beyond, -, -, hf, -⟩ | ⟨hr, -⟩
  · rw [hf.lookSignificant]
    rcases c.look with ⟨_ | t, after⟩ <;> rfl
  · have hlook : c.look = (none, c.beginLook) := by
      have hb : c.beginLook.readable = [] := hr
      rw [look, step, hb]
      rfl
    rw [lookSignificant, hr, significant_nil, hlook]
    rfl

/-- A read moves the cursor and changes nothing else. -/
theorem step_place (c : Cursor) : c.step.2 = { c with place := c.step.2.place } := by
  unfold step
  split
  · rfl
  · rfl

/-- A look begins a look ahead and moves the cursor. -/
theorem look_place (c : Cursor) : c.look.2 = { c.beginLook with place := c.look.2.place } :=
  step_place c.beginLook

theorem source_look (c : Cursor) : c.look.2.source = c.source := by rw [look_place]; rfl

theorem bound_look (c : Cursor) : c.look.2.bound = c.bound := by rw [look_place]; rfl

/-- A look is a read from where the cursor is, with a look ahead pending. -/
theorem reads_look (h : c.place.StandsIn c.source) : c.beginLook.Reads :=
  reads (c := c.beginLook) h

theorem stands_look (h : c.place.StandsIn c.source) : c.look.2.place.StandsIn c.look.2.source := by
  rw [source_look]
  exact (reads_look h).stands

/-- What holds of looks one behind the other holds of a look past trivia. The motive is about a
cursor and what a look past trivia gives there. The recursion is on how far the cursor is from its
limit, which shows only here: whoever uses the induction has two cases, the last look and one that
is passed. -/
theorem lookSignificant_induction {P : Cursor → Option Token × Cursor → Prop}
    (last : ∀ c, c.place.StandsIn c.source → c.look.1.any (·.kind.isTrivia) = false → P c c.look)
    (passed : ∀ c t, c.place.StandsIn c.source → c.look.1 = some t → t.kind.isTrivia = true →
      P c.look.2 c.look.2.lookSignificant → P c c.look.2.lookSignificant)
    (h : c.place.StandsIn c.source) : P c c.lookSignificant := by
  induction hn : c.bound - c.place.byte using Nat.strong_induction_on generalizing c with
  | h n ih =>
    rw [lookSignificant_eq h]
    split <;> rename_i hk
    · obtain ⟨t, ht, hk⟩ := (Option.any_eq_true _ _).1 hk
      have hmoved : c.place.byte < c.look.2.place.byte ∧ c.look.2.place.byte ≤ c.bound :=
        (reads_look h).forward t ht
      refine passed c t h ht hk (ih _ ?_ (stands_look h) rfl)
      rw [bound_look]
      omega
    · exact last c h (Bool.eq_false_iff.2 hk)

theorem lookSignificant_forward (h : c.place.StandsIn c.source) : ∀ t,
    c.lookSignificant.1 = some t → c.place.byte < c.lookSignificant.2.place.byte ∧
      c.lookSignificant.2.place.byte ≤ c.bound := by
  refine lookSignificant_induction (P := fun c r => ∀ t, r.1 = some t →
    c.place.byte < r.2.place.byte ∧ r.2.place.byte ≤ c.bound) (fun c h _ => ?_)
    (fun c t h ht _ ih u hu => ?_) h
  · exact (reads_look h).forward
  · have hfirst : c.place.byte < c.look.2.place.byte ∧ c.look.2.place.byte ≤ c.bound :=
      (reads_look h).forward t ht
    obtain ⟨hlt, hle⟩ := ih u hu
    rw [bound_look] at hle
    exact ⟨hfirst.1.trans hlt, hle⟩

theorem lookSignificant_stands (h : c.place.StandsIn c.source) :
    c.lookSignificant.2.place.StandsIn c.source := by
  refine lookSignificant_induction (P := fun c r => r.2.place.StandsIn c.source)
    (fun c h _ => (reads_look h).stands) (fun c t h ht _ ih => ?_) h
  rw [source_look] at ih
  exact ih

/-- No round is one too many: each of them moves the cursor by a byte at least, and not past the
limit. -/
theorem checked_lookSignificant {rounds : Nat} (h : c.place.StandsIn c.source)
    (hr : c.bound - c.place.byte < rounds) :
    Checked.lookSignificant rounds c = .ok c.lookSignificant := by
  induction rounds generalizing c with
  | zero => omega
  | succ rounds ih =>
    have hlook : Checked.look c = .ok c.look := (reads_look h).checked
    rw [Checked.lookSignificant, hlook, ok_bind, lookSignificant_eq h]
    simp only
    split <;> rename_i hk
    · obtain ⟨t, ht, -⟩ := (Option.any_eq_true _ _).1 hk
      have hmoved : c.place.byte < c.look.2.place.byte ∧ c.look.2.place.byte ≤ c.bound :=
        (reads_look h).forward t ht
      refine ih (stands_look h) ?_
      rw [bound_look]
      omega
    · rfl

end Cursor

end Heddle
