import Heddle.Diagnostic
import Heddle.Proofs.Tape.Lexed

/-!
# The same text at another place

A text that stands behind another one has all its places moved: bytes by the size of the text in
front, lines by the line feeds in it, and columns only on the first line, which goes on the last
line of the text in front. `Shift` is such a move, and the tokens of a text behind another one are
the tokens of the text alone, shifted (`readAll_shift`).

A line feed ends the first line for good, so places are shifted by looking at their line. This is
right for all places from the first line on, and lines count from 1: **every lemma asks for
`1 ≤ p.line` where a reading begins**, and no lemma has to keep it, since lines never go back.
-/

set_option autoImplicit false

namespace Heddle

open Text

/-- How far a text is moved. Lines and bytes are added everywhere, columns on the first line only.
-/
structure Shift where
  lines : Nat
  /-- How far its first line is moved to the right. -/
  columns : Nat
  bytes : Nat
deriving DecidableEq, Repr

/-- The column in the moved text: only the first line begins elsewhere. -/
def Shift.column (d : Shift) (line column : Nat) : Nat :=
  if line = 1 then column + d.columns else column

/-! ## Places -/

/-- The place in the moved text. It commutes with going on in the text (`Position.past_shift`) for
all places whose line is at least 1. -/
def Position.shift (d : Shift) (p : Position) : Position :=
  ⟨p.line + d.lines, d.column p.line p.column, p.byte + d.bytes⟩

@[simp] theorem Position.byte_shift (d : Shift) (p : Position) :
    (p.shift d).byte = p.byte + d.bytes := rfl

theorem Position.after_shift (d : Shift) {p : Position} (h : 1 ≤ p.line) (c : Char) :
    (p.shift d).after c = (p.after c).shift d := by
  unfold after shift Shift.column
  split
  · have hne : ¬ p.line + 1 = 1 := by omega
    simp only [if_neg hne, mk.injEq, true_and]
    omega
  · simp only [mk.injEq, true_and]
    split <;> omega

theorem Position.past_shift (d : Shift) {p : Position} (h : 1 ≤ p.line) (cs : List Char) :
    (p.shift d).past cs = (p.past cs).shift d := by
  induction cs generalizing p with
  | nil => rfl
  | cons c cs ih =>
    rw [past_cons, past_cons, after_shift d h, ih (Nat.le_trans h (p.line_le_after c))]

/-! ## Tokens -/

/-- The end of a placeholder is a byte. -/
def Placeholder.shift (d : Shift) (p : Placeholder) : Placeholder :=
  ⟨p.position.shift d, p.stop + d.bytes, p.braced⟩

/-- Only a quoted text knows places. -/
def TokenKind.shift (d : Shift) : TokenKind → TokenKind
  | quoted style ps => quoted style (ps.map (·.shift d))
  | kind => kind

/-- The text of a token is what it was. -/
def Token.shift (d : Shift) (t : Token) : Token :=
  ⟨t.kind.shift d, t.text, t.position.shift d⟩

/-- A kind of token that knows no places. -/
theorem TokenKind.shift_of_ne {kind : TokenKind} (h : ∀ style ps, kind ≠ quoted style ps)
    (d : Shift) : kind.shift d = kind := by
  cases kind with
  | quoted style ps => exact absurd rfl (h style ps)
  | _ => rfl

namespace Lexeme

/-- Only the kind of a lexeme knows places. -/
def shift (d : Shift) (l : Lexeme) : Lexeme := { l with kind := l.kind.shift d }

/-- The placeholders of a moved text are moved. The reader carries the place along, so the
induction is along the reader with the place left open; its line stays at least 1. -/
theorem quotedBody?_shift (d : Shift) (quote : Char) {position : Position}
    (h : 1 ≤ position.line) (cs : List Char) :
    quotedBody? quote (position.shift d) cs = (quotedBody? quote position cs).map
      fun (ps, text, rest) => (ps.map (·.shift d), text, rest) := by
  fun_induction quotedBody? quote position cs with
  | case1 => rw [quotedBody?]; rfl
  | case2 => rw [quotedBody?]; rfl
  | case3 position c cs ih =>
    have hle := Nat.le_trans h (position.line_le_after '\\')
    rw [quotedBody?, Position.after_shift d h, Position.after_shift d hle,
      ih (Nat.le_trans hle (Position.line_le_after _ c)), Option.map_map, Option.map_map]
    rfl
  -- At a placeholder the reader uses the place twice: as where the placeholder begins, and as
  -- where the rest of the text does.
  | case4 position cs sign =>
    rename_i behind ih
    have hbehind : (position.shift d).past sign.taken = behind.shift d :=
      Position.past_shift d h sign.taken
    have hfound : (sign.placeholder.map fun isBraced =>
          Placeholder.mk (position.shift d) (behind.shift d).byte isBraced) =
        (sign.placeholder.map fun isBraced => Placeholder.mk position behind.byte isBraced).map
          (·.shift d) := by
      rw [Option.map_map]
      rfl
    rw [quotedBody?]
    show Option.map (fun (ps, text, rest) => ((sign.placeholder.map fun isBraced =>
      Placeholder.mk (position.shift d) ((position.shift d).past sign.taken).byte
        isBraced).toList ++ ps, sign.taken ++ text, rest))
      (quotedBody? quote ((position.shift d).past sign.taken) sign.left) = _
    rw [hbehind, hfound, ih (Nat.le_trans h (position.line_le_past _))]
    cases quotedBody? quote behind sign.left with
    | none => rfl
    | some found => cases sign.placeholder <;> rfl
  | case5 position cs h₁ h₂ h₃ =>
    rw [quotedBody?_cons (ne_backslash h₁ h₂) h₃, if_pos rfl]
    rfl
  | case6 position c cs h₁ h₂ h₃ hc ih =>
    rw [quotedBody?_cons (ne_backslash h₁ h₂) h₃, if_neg hc, Position.after_shift d h,
      ih (Nat.le_trans h (position.line_le_after c)), Option.map_map, Option.map_map]
    rfl

/-- Placeholders are behind the place where the text begins, so their lines are at least 1 as
well. -/
theorem quotedBody?_line {quote : Char} {position : Position} {cs : List Char}
    {ps : List Placeholder} {text rest : List Char}
    (h : quotedBody? quote position cs = some (ps, text, rest)) :
    ∀ p ∈ ps, position.line ≤ p.position.line := by
  fun_induction quotedBody? quote position cs generalizing ps text rest with
  | case1 | case2 => cases h
  | case3 position c cs ih =>
    obtain ⟨⟨ps, text, rest⟩, inner, heq⟩ := Option.map_eq_some_iff.1 h
    cases heq
    intro p hp
    exact Nat.le_trans (Position.line_le_after _ _)
      (Nat.le_trans (Position.line_le_after _ _) (ih inner p hp))
  | case4 position cs sign =>
    rename_i behind ih
    obtain ⟨⟨ps, text, rest⟩, inner, heq⟩ := Option.map_eq_some_iff.1 h
    cases heq
    intro p hp
    rcases List.mem_append.1 hp with hp | hp
    · obtain ⟨isBraced, -, rfl⟩ := Option.map_eq_some_iff.1 (Option.mem_toList.1 hp)
      exact Nat.le_refl _
    · exact Nat.le_trans (Position.line_le_past _ _) (ih inner p hp)
  | case5 =>
    cases h
    exact List.forall_mem_nil _
  | case6 position c cs _ _ _ _ ih =>
    obtain ⟨⟨ps, text, rest⟩, inner, heq⟩ := Option.map_eq_some_iff.1 h
    cases heq
    intro p hp
    exact Nat.le_trans (Position.line_le_after _ _) (ih inner p hp)

theorem quoted_shift (d : Shift) (style : QuoteStyle) {position : Position}
    (h : 1 ≤ position.line) (cs : List Char) :
    quoted style (position.shift d) cs = (quoted style position cs).shift d := by
  unfold quoted
  rw [Position.after_shift d h,
    quotedBody?_shift d _ (Nat.le_trans h (position.line_le_after _))]
  cases quotedBody? style.mark (position.after style.mark) cs with
  | none => rfl
  | some found => rfl

/-- Only a quoted text is read differently at another place. -/
theorem scan_of_ne {preferHex : Bool} {c : Char} (hd : c ≠ '\x22') (hs : c ≠ '\x27')
    (position position' : Position) (cs : List Char) :
    scan preferHex position c cs = scan preferHex position' c cs := by
  unfold scan
  simp only [if_neg hd, if_neg hs]

theorem scan_shift (d : Shift) (preferHex : Bool) {position : Position} (h : 1 ≤ position.line)
    (c : Char) (cs : List Char) :
    scan preferHex (position.shift d) c cs = (scan preferHex position c cs).shift d := by
  by_cases hd : c = '\x22'
  · subst hd
    exact quoted_shift d .double h cs
  by_cases hs : c = '\x27'
  · subst hs
    exact quoted_shift d .single h cs
  rw [scan_of_ne hd hs (position.shift d) position, shift, TokenKind.shift_of_ne]
  intro style ps hk
  obtain ⟨rfl, -⟩ := scan_quoted hk
  cases style
  · exact hd rfl
  · exact hs rfl

end Lexeme

namespace Token

/-- **The tokens of a moved text are the moved tokens.** The reader of documents does the same
with moved tokens (`Heddle.Proofs.Reading.Moved`), and together they give the reading of a moved
source. -/
theorem readAll_shift (d : Shift) {p : Position} (h : 1 ≤ p.line) (cs : List Char) :
    readAll (p.shift d) cs = (readAll p cs).map (·.shift d) := by
  fun_induction readAll p cs with
  | case1 p => exact readAll_nil _
  | case2 p c cs l ih =>
    have hl : Lexeme.scan false (p.shift d) c cs = l.shift d := Lexeme.scan_shift d false h c cs
    rw [readAll_cons, hl, List.map_cons, ← ih (Nat.le_trans h (p.line_le_past _)),
      ← Position.past_shift d h]
    rfl

/-- Where the placeholders of the first token are. -/
theorem line_placeholder {p : Position} {cs : List Char} {t : Token} {ts : List Token}
    (h : readAll p cs = t :: ts) {style : QuoteStyle} {ps : List Placeholder}
    (hk : t.kind = .quoted style ps) : ∀ q ∈ ps, p.line ≤ q.position.line := by
  obtain ⟨c, rest, -, rfl⟩ := exists_scan h
  obtain ⟨rfl, hs⟩ := Lexeme.scan_quoted hk
  replace hk : (Lexeme.scan false p style.mark rest).kind = .quoted style ps := hk
  rw [hs] at hk
  unfold Lexeme.quoted at hk
  split at hk <;> rename_i hq
  · cases hk
    intro q hm
    exact Nat.le_trans (Position.line_le_after _ _) (Lexeme.quotedBody?_line hq q hm)
  · cases hk

end Token

end Heddle
