import Mathlib
import Heddle.Text.Quoted

/-!
# Quoted texts read back

What stands between the quotes says which text it is. A character that is written for itself is no
backslash, and behind a backslash the next character tells which kind of escape it is and where the
escape ends, so **the code of a character can be read off whatever it stands in front of**
(`first?_encodeChar`). Two texts that are written alike are therefore the same
(`encode_injective`).

A line feed is among the characters that are written by a backslash, and no code of another one
holds it (`newline_not_mem_encode`). These two facts are all that is used of quoted texts where they
stand in something larger.
-/

set_option autoImplicit false

namespace Heddle.Text.Quoted

/-- The characters that have a letter of their own behind the backslash. -/
def escapes : List (Char × Char) :=
  [('\x00', '0'), ('\t', 't'), ('\r', 'r'), ('\n', 'n'), ('\x22', '\x22'), ('\\', '\\')]

/-! ## Code points -/

/-- The number that a hexadecimal digit in lower case stands for. -/
def digitValue (c : Char) : Nat :=
  if c.isDigit then c.toNat - '0'.toNat else c.toNat - 'a'.toNat + 10

/-- The number that hexadecimal digits stand for. -/
def digitsValue (ds : List Char) : Nat := ds.foldl (fun n c => 16 * n + digitValue c) 0

theorem digitValue_digitChar {n : Nat} (h : n < 16) : digitValue n.digitChar = n := by
  interval_cases n <;> rfl

/-- The digits of a number stand for it. -/
theorem digitsValue_toDigits (n : Nat) : digitsValue (Nat.toDigits 16 n) = n := by
  induction n using Nat.strong_induction_on with
  | _ n ih =>
    rw [Nat.toDigits_eq_if (by decide)]
    split <;> rename_i hn
    · simp [digitsValue, digitValue_digitChar hn]
    · have hsmaller : n / 16 < n := Nat.div_lt_self (by omega) (by decide)
      have hlast : digitValue (n % 16).digitChar = n % 16 :=
        digitValue_digitChar (Nat.mod_lt n (by decide))
      have hfront : (Nat.toDigits 16 (n / 16)).foldl (fun n c => 16 * n + digitValue c) 0 =
          n / 16 := ih _ hsmaller
      rw [digitsValue, List.foldl_append, hfront, List.foldl_cons, List.foldl_nil, hlast]
      exact Nat.div_add_mod n 16

/-- Digits are letters and digits. So the brace that closes a code point is none of them. -/
theorem isAlphanum_of_mem_toDigits {n : Nat} {c : Char} (h : c ∈ Nat.toDigits 16 n) :
    c.isAlphanum = true := by
  have hdigit {m : Nat} (hm : m < 16) : m.digitChar.isAlphanum = true := by
    interval_cases m <;> rfl
  induction n using Nat.strong_induction_on with
  | _ n ih =>
    rw [Nat.toDigits_eq_if (by decide)] at h
    split at h <;> rename_i hn
    · rw [List.mem_singleton.1 h]
      exact hdigit hn
    · rcases List.mem_append.1 h with h | h
      · exact ih (n / 16) (Nat.div_lt_self (by omega) (by decide)) h
      · rw [List.mem_singleton.1 h]
        exact hdigit (Nat.mod_lt n (by decide))

/-! ## Characters -/

/-- The first character of what stands between quotes, and what is written behind it. -/
def first? : List Char → Option (Char × List Char)
  | [] => none
  | '\\' :: 'u' :: '\x7b' :: cs =>
    some (Char.ofNat (digitsValue (cs.takeWhile (· != '\x7d'))), (cs.dropWhile (· != '\x7d')).tail)
  | '\\' :: letter :: cs => (escapes.find? (·.2 == letter)).map fun e => (e.1, cs)
  | c :: cs => some (c, cs)

/-- A character is written by a letter of its own, as itself if it is no backslash, or by its code
point. Which characters can be printed is decided by a table of the language, of which nothing is
used: all three ways can be read back. -/
theorem encodeChar_cases (c : Char) :
    (∃ letter, (c, letter) ∈ escapes ∧ encodeChar c = ['\\', letter]) ∨
      (encodeChar c = [c] ∧ c ≠ '\\' ∧ c ≠ '\n') ∨ encodeChar c = byCodePoint c := by
  unfold encodeChar
  split <;> rename_i hnul
  · exact .inl ⟨'0', by simp [hnul, escapes], rfl⟩
  split <;> rename_i htab
  · exact .inl ⟨'t', by simp [htab, escapes], rfl⟩
  split <;> rename_i hreturn
  · exact .inl ⟨'r', by simp [hreturn, escapes], rfl⟩
  split <;> rename_i hfeed
  · exact .inl ⟨'n', by simp [hfeed, escapes], rfl⟩
  split <;> rename_i hquote
  · exact .inl ⟨'\x22', by simp [hquote, escapes], rfl⟩
  split <;> rename_i hbackslash
  · exact .inl ⟨'\\', by simp [hbackslash, escapes], rfl⟩
  split
  · exact .inr (.inl ⟨rfl, hbackslash, hfeed⟩)
  · exact .inr (.inr rfl)

/-- **A character is read off its code**, whatever stands behind it. So codes are told apart
although one may be the beginning of another text. -/
theorem first?_encodeChar (c : Char) (cs : List Char) :
    first? (encodeChar c ++ cs) = some (c, cs) := by
  -- The three ways to write a character begin differently, and the first two end behind one or
  -- two characters.
  rcases encodeChar_cases c with ⟨letter, hmem, he⟩ | ⟨he, hc, -⟩ | he
  · rw [he]
    simp only [escapes, List.mem_cons, Prod.mk.injEq, List.not_mem_nil, or_false] at hmem
    rcases hmem with ⟨rfl, rfl⟩ | ⟨rfl, rfl⟩ | ⟨rfl, rfl⟩ | ⟨rfl, rfl⟩ | ⟨rfl, rfl⟩ | ⟨rfl, rfl⟩ <;>
      rfl
  · rw [he, List.singleton_append, first?]
    all_goals
      intros
      contradiction
  · have hne : ∀ d ∈ Nat.toDigits 16 c.toNat, (d != '\x7d') = true := by
      intro d hd
      have halpha := isAlphanum_of_mem_toDigits hd
      simp only [bne_iff_ne]
      rintro rfl
      exact absurd halpha (by decide)
    have htake : ((Nat.toDigits 16 c.toNat ++ '\x7d' :: cs).takeWhile (· != '\x7d')) =
        Nat.toDigits 16 c.toNat := by
      rw [List.takeWhile_append_of_pos hne, List.takeWhile_cons_of_neg (by simp)]
      exact List.append_nil _
    have hdrop : ((Nat.toDigits 16 c.toNat ++ '\x7d' :: cs).dropWhile (· != '\x7d')) =
        '\x7d' :: cs := by
      rw [List.dropWhile_append_of_pos hne, List.dropWhile_cons_of_neg (by simp)]
    have hcode : byCodePoint c ++ cs =
        '\\' :: 'u' :: '\x7b' :: (Nat.toDigits 16 c.toNat ++ '\x7d' :: cs) := by
      simp [byCodePoint]
    rw [he, hcode, first?, htake, hdrop, digitsValue_toDigits, Char.ofNat_toNat]
    rfl

/-- No character is written with a line feed. -/
theorem newline_not_mem_encodeChar (c : Char) : '\n' ∉ encodeChar c := by
  rcases encodeChar_cases c with ⟨letter, hmem, he⟩ | ⟨he, -, hc⟩ | he
  · have hletters : ∀ e ∈ escapes, '\n' ∉ ['\\', e.2] := by decide
    rw [he]
    exact hletters _ hmem
  · rw [he, List.mem_singleton]
    exact hc.symm
  · rw [he, byCodePoint]
    simp only [List.cons_append, List.mem_cons, List.mem_append, List.not_mem_nil, or_false]
    rintro (h | h | h | h | h)
    · exact absurd h (by decide)
    · exact absurd h (by decide)
    · exact absurd h (by decide)
    · exact absurd (isAlphanum_of_mem_toDigits h) (by decide)
    · exact absurd h (by decide)

/-! ## Texts -/

/-- Texts that are written alike up to the closing quote are the same. A text that ended earlier
would have the quote where the other has the code of a character, and no code begins with a quote.
-/
theorem eq_of_flatMap_encodeChar {xs ys : List Char}
    (h : xs.flatMap encodeChar ++ ['\x22'] = ys.flatMap encodeChar ++ ['\x22']) : xs = ys := by
  -- A text that has ended has nothing behind its quote.
  have hend (y : Char) (ys : List Char) :
      ['\x22'] ≠ (y :: ys).flatMap encodeChar ++ ['\x22'] := by
    intro h
    have hfirst := congrArg first? h
    rw [List.flatMap_cons, List.append_assoc, first?_encodeChar] at hfirst
    have hrest := congrArg Prod.snd (Option.some.inj hfirst)
    simp at hrest
  induction xs generalizing ys with
  | nil =>
    cases ys with
    | nil => rfl
    | cons y ys => exact absurd h (hend y ys)
  | cons x xs ih =>
    cases ys with
    | nil => exact absurd h.symm (hend x xs)
    | cons y ys =>
      have hfirst := congrArg first? h
      rw [List.flatMap_cons, List.append_assoc, first?_encodeChar, List.flatMap_cons,
        List.append_assoc, first?_encodeChar] at hfirst
      obtain ⟨rfl, hrest⟩ := Prod.mk.inj (Option.some.inj hfirst)
      rw [ih hrest]

/-- **No two texts are written alike.** The closing quote is what makes a text that is the
beginning of another one a different text. -/
theorem encode_injective : Function.Injective encode := by
  intro s t h
  have hchars := String.ofList_injective h
  rw [List.cons_append, List.cons_append] at hchars
  exact String.toList_injective (eq_of_flatMap_encodeChar (List.cons.inj hchars).2)

/-- **A quoted text stays on its line.** A line feed has a letter of its own, and no code point is
written with one. -/
theorem newline_not_mem_encode (s : String) : '\n' ∉ (encode s).toList := by
  rw [encode, String.toList_ofList]
  simp only [List.cons_append, List.mem_cons, List.mem_append, List.mem_flatMap, List.not_mem_nil,
    or_false]
  rintro (h | ⟨c, -, h⟩ | h)
  · exact absurd h (by decide)
  · exact newline_not_mem_encodeChar c h
  · exact absurd h (by decide)

end Heddle.Text.Quoted
