import Heddle.Grammar.Lookahead

/-!
# What no look ahead tells apart

A look ahead goes by the kinds and the texts of tokens. It does not see where the tokens are, and of
trivia it sees nothing but that it is trivia: neither how long a run of blanks is nor whether a
comment stands there instead. So tokens may be given a `Disguise`, in which they are elsewhere and
trivia is other trivia, and **almost every look answers as before** (`Lookahead.IgnoresDisguise`).

The exception is the look for a call without parentheses, which asks for a blank and takes no
comment for one. It needs a disguise in which blanks stay blanks.
-/

set_option autoImplicit false

namespace Heddle

/-- The kind without the places in it, which are those of the placeholders of a quoted text. -/
def TokenKind.unplaced : TokenKind → TokenKind
  | quoted style _ => quoted style []
  | kind => kind

/-- The token without its places. -/
def Token.unplaced (t : Token) : Token := ⟨t.kind.unplaced, t.text, .origin⟩

/-- Other tokens in the place of tokens: trivia for trivia, and for every other token the same
elsewhere. Moving a text is one disguise (`Shift.disguise`), exchanging blanks for other blanks is
another (`Proofs.Document.Trivia`), so a look is gone through once for both. -/
structure Disguise where
  map : Token → Token
  isTrivia_map : ∀ t, (map t).isTrivia = t.isTrivia
  unplaced_map : ∀ t, t.isTrivia = false → (map t).unplaced = t.unplaced

open Token Lookahead

namespace Token

variable (f : Disguise) (t : Token)

attribute [simp] Disguise.isTrivia_map

/-- What does not depend on places and does not tell trivia from trivia sees through a disguise.
All tests of single tokens come from here, through `kind_disguise` where the text does not count.
-/
theorem disguised {P : Token → Bool} (hp : ∀ t, P t.unplaced = P t)
    (htrivia : ∀ t u : Token, t.isTrivia = true → u.isTrivia = true → P t = P u) :
    P (f.map t) = P t := by
  cases ht : t.isTrivia with
  | true => exact htrivia _ _ (by rw [f.isTrivia_map, ht]) ht
  | false => rw [← hp, f.unplaced_map t ht, hp]

/-- The kind counts, but for the placeholders of a quoted text, and trivia is all the same. -/
theorem kind_disguise {P : TokenKind → Bool}
    (hp : ∀ style ps, P (.quoted style ps) = P (.quoted style []))
    (htrivia : P .lineComment = P .blank ∧ P .blockComment = P .blank) :
    P (f.map t).kind = P t.kind := by
  have hblank : ∀ t : Token, t.isTrivia = true → P t.kind = P .blank := by
    rintro ⟨kind, text, position⟩ h
    cases kind <;> first | rfl | exact htrivia.1 | exact htrivia.2 | cases h
  refine disguised f t (P := fun t => P t.kind) (fun t => ?_) fun t u ht hu => ?_
  · show P t.kind.unplaced = P t.kind
    cases t.kind with
    | quoted style ps => exact (hp style ps).symm
    | _ => rfl
  · exact (hblank t ht).trans (hblank u hu).symm

@[simp] theorem isMark_disguise (m : Mark) : (f.map t).isMark m = t.isMark m :=
  kind_disguise f t (P := (· == .mark m)) (fun _ _ => rfl) ⟨rfl, rfl⟩

@[simp] theorem isName_disguise : (f.map t).isName = t.isName :=
  kind_disguise f t (P := (· == .word)) (fun _ _ => rfl) ⟨rfl, rfl⟩

@[simp] theorem isNumber_disguise : (f.map t).kind.isNumber = t.kind.isNumber :=
  kind_disguise f t (fun _ _ => rfl) ⟨rfl, rfl⟩

@[simp] theorem isQuoted_disguise : (f.map t).isQuoted = t.isQuoted :=
  kind_disguise f t (P := (·.placeholders?.isSome)) (fun _ _ => rfl) ⟨rfl, rfl⟩

@[simp] theorem isRawText_disguise : (f.map t).isRawText = t.isRawText :=
  kind_disguise f t (P := (· == .rawText)) (fun _ _ => rfl) ⟨rfl, rfl⟩

@[simp] theorem isForeign_disguise : (f.map t).isForeign = t.isForeign :=
  kind_disguise f t (P := fun kind => isForeign ⟨kind, "", .origin⟩) (fun _ _ => rfl) ⟨rfl, rfl⟩

/-- A word is no trivia, so its text is kept. -/
@[simp] theorem isWord_disguise (word : String) : (f.map t).isWord word = t.isWord word := by
  have hname : ∀ t : Token, t.isTrivia = true → t.isWord word = false := by
    rintro ⟨kind, text, position⟩ h
    cases kind <;> first | rfl | cases h
  refine disguised f t (P := fun t => t.isWord word) ?_ fun t u ht hu => by
    rw [hname t ht, hname u hu]
  rintro ⟨kind, text, position⟩
  cases kind <;> rfl

@[simp] theorem isObjectWord_disguise : (f.map t).isObjectWord = t.isObjectWord := by
  have hname : ∀ t : Token, t.isTrivia = true → t.isObjectWord = false := by
    rintro ⟨kind, text, position⟩ h
    cases kind <;> first | rfl | cases h
  refine disguised f t ?_ fun t u ht hu => by rw [hname t ht, hname u hu]
  rintro ⟨kind, text, position⟩
  cases kind <;> rfl

@[simp] theorem beginsArgument_disguise : (f.map t).beginsArgument = t.beginsArgument := by
  have hkind : (!(f.map t).kind.isMark && (f.map t).kind != .invalid) =
      (!t.kind.isMark && t.kind != .invalid) :=
    kind_disguise f t (P := fun kind => !kind.isMark && kind != .invalid) (fun _ _ => rfl)
      ⟨rfl, rfl⟩
  have hwords : (f.map t).isWord = t.isWord := funext (isWord_disguise f t)
  rw [beginsArgument, hkind, hwords]
  rfl

@[simp] theorem isOperator_disguise : (f.map t).isOperator = t.isOperator := by
  simp [isOperator]

@[simp] theorem isComparator_disguise : (f.map t).isComparator = t.isComparator := by
  simp [isComparator]

@[simp] theorem isCombinator_disguise : (f.map t).isCombinator = t.isCombinator := by
  simp [isCombinator]

@[simp] theorem refusesBlank_disguise : (f.map t).refusesBlank = t.refusesBlank := by
  simp [refusesBlank]

end Token

/-! ## Looks -/

namespace Lookahead

/-- The answer is the same under every disguise. It is asked of looks only; what a phrase reads
under a disguise is the subject of `Reading.Bridges` and `Reading.Moved`. -/
def IgnoresDisguise (test : Lookahead) : Prop :=
  ∀ (f : Disguise) (ts : List Token), test (ts.map f.map) = test ts

@[simp] theorem ignoresDisguise_next {P : Token → Bool}
    (hp : ∀ (f : Disguise) t, P (f.map t) = P t) : IgnoresDisguise (next P) := by
  intro f ts
  cases ts with
  | nil => rfl
  | cons t ts => exact hp f t

theorem find?_disguise (f : Disguise) (ts : List Token) :
    (ts.map f.map).find? (!·.isTrivia) = (ts.find? (!·.isTrivia)).map f.map := by
  induction ts with
  | nil => rfl
  | cons t ts ih =>
    rw [List.map_cons, List.find?_cons, List.find?_cons, f.isTrivia_map, ih]
    split
    · rfl
    · rfl

@[simp] theorem ignoresDisguise_significant {P : Token → Bool}
    (hp : ∀ (f : Disguise) t, P (f.map t) = P t) : IgnoresDisguise (significant P) := by
  intro f ts
  rw [significant, significant, find?_disguise]
  cases ts.find? (!·.isTrivia) with
  | none => rfl
  | some t => exact hp f t

@[simp] theorem ignoresDisguise_pair {P R : Token → Bool}
    (hp : ∀ (f : Disguise) t, P (f.map t) = P t)
    (hr : ∀ (f : Disguise) t, R (f.map t) = R t) : IgnoresDisguise (pair P R) := by
  intro f ts
  match ts with
  | [] | [_] => rfl
  | t :: u :: ts => simp only [List.map_cons, pair, hp, hr]

theorem IgnoresDisguise.or {a b : Lookahead} (ha : IgnoresDisguise a) (hb : IgnoresDisguise b) :
    IgnoresDisguise fun ts => a ts || b ts := by
  intro f ts
  simp only [ha f ts, hb f ts]

theorem IgnoresDisguise.and {a b : Lookahead} (ha : IgnoresDisguise a) (hb : IgnoresDisguise b) :
    IgnoresDisguise fun ts => a ts && b ts := by
  intro f ts
  simp only [ha f ts, hb f ts]

/-- A blank behind a name counts only as a blank, so the look for a call without parentheses needs
a disguise that keeps blanks apart from comments. -/
theorem isSpacedCall_disguise {f : Disguise}
    (hb : ∀ t, ((f.map t).kind == .blank) = (t.kind == .blank)) (ts : List Token) :
    isSpacedCall (ts.map f.map) = isSpacedCall ts := by
  match ts with
  | [] | [_] => rfl
  | t :: u :: ts =>
    have hs := ignoresDisguise_significant beginsArgument_disguise f ts
    simp only [List.map_cons, isSpacedCall, isName_disguise, hb, hs]

@[simp] theorem ignoresDisguise_isObject : IgnoresDisguise isObject :=
  ignoresDisguise_pair (fun f t => isMark_disguise f t _) isObjectWord_disguise

@[simp] theorem ignoresDisguise_isCall : IgnoresDisguise isCall :=
  ignoresDisguise_pair isName_disguise fun f t => isMark_disguise f t _

@[simp] theorem ignoresDisguise_isDescendant : IgnoresDisguise isDescendant :=
  (ignoresDisguise_next Disguise.isTrivia_map).and
    (ignoresDisguise_significant fun f t => by rw [refusesBlank_disguise])

/-! ## Looks that scan -/

theorem reachesFirst_disguise (f : Disguise) (depth : Nat) (ts : List Token) :
    reachesFirst depth (ts.map f.map) = reachesFirst depth ts := by
  induction ts generalizing depth with
  | nil => rfl
  | cons t ts ih => simp only [List.map_cons, reachesFirst, isMark_disguise, ih]

theorem isValue_disguise (f : Disguise) (depth : Nat) (ts : List Token) :
    isValue depth (ts.map f.map) = isValue depth ts := by
  induction ts generalizing depth with
  | nil => rfl
  | cons t ts ih =>
    have hn := ignoresDisguise_next isObjectWord_disguise f ts
    simp only [List.map_cons, isValue, isMark_disguise, ih, hn]

/-- The scan over the target of an assignment looks at marks and names only, so it ends at the
same token, disguised. -/
theorem behindSign?_disguise (f : Disguise) (st : TargetState) (ts : List Token) :
    behindSign? st (ts.map f.map) = (behindSign? st ts).map (List.map f.map) := by
  -- The scan is followed token by token, in each of its states at once: the induction is on the
  -- tokens, the state is arbitrary.
  induction ts generalizing st with
  | nil => rfl
  | cons t ts ih =>
    rw [List.map_cons]
    cases st with
    | between =>
      simp only [behindSign?, isMark_disguise, Disguise.isTrivia_map, ih]
      split
      · rfl
      split
      · rfl
      split
      · rfl
      split
      · rfl
      split
      · rfl
      · rfl
    | name =>
      simp only [behindSign?, isName_disguise, ih]
      split
      · rfl
      · rfl
    | group opening closing inner =>
      simp only [behindSign?, isMark_disguise, ih]
      split
      · rfl
      split
      · cases inner <;> rfl
      · rfl

theorem dropWhile_disguise (f : Disguise) (ts : List Token) :
    (ts.map f.map).dropWhile isTrivia = (ts.dropWhile isTrivia).map f.map := by
  rw [List.dropWhile_map]
  congr 2
  funext t
  exact f.isTrivia_map t

theorem behindHead?_disguise (f : Disguise) (ts : List Token) :
    behindHead? (ts.map f.map) = (behindHead? ts).map (List.map f.map) := by
  unfold behindHead?
  rw [dropWhile_disguise]
  cases ts.dropWhile isTrivia with
  | nil => rfl
  | cons t ts =>
    have hn := ignoresDisguise_next isObjectWord_disguise f ts
    simp only [List.map_cons, isName_disguise, isMark_disguise, hn]
    split
    · rfl
    split
    · rw [Option.map_some, List.map_tail]
    · rfl

@[simp] theorem ignoresDisguise_isAssignment : IgnoresDisguise isAssignment := by
  intro f ts
  rw [isAssignment, isAssignment, behindHead?_disguise]
  cases behindHead? ts with
  | none => rfl
  | some xs =>
    simp only [Option.map_some, Option.bind_some, behindSign?_disguise]
    cases behindSign? .between xs with
    | none => rfl
    | some ys => exact isValue_disguise f 0 ys

@[simp] theorem ignoresDisguise_isRule : IgnoresDisguise isRule := by
  intro f ts
  rw [isRule, isRule, reachesFirst_disguise]

@[simp] theorem ignoresDisguise_isSelectorCall : IgnoresDisguise isSelectorCall := by
  intro f ts
  rw [isSelectorCall, isSelectorCall, reachesFirst_disguise]

theorem hasBar_disguise (f : Disguise) (depth : Nat) (ts : List Token) :
    hasBar depth (ts.map f.map) = hasBar depth ts := by
  induction ts generalizing depth with
  | nil => rfl
  | cons t ts ih =>
    simp only [List.map_cons, hasBar, isMark_disguise, isName_disguise, Disguise.isTrivia_map, ih]

theorem hasColon_disguise (f : Disguise) (depth : Nat) (ts : List Token) :
    hasColon depth (ts.map f.map) = hasColon depth ts := by
  induction ts generalizing depth with
  | nil => rfl
  | cons t ts ih => simp only [List.map_cons, hasColon, isMark_disguise, ih]

@[simp] theorem ignoresDisguise_isMultipleType : IgnoresDisguise isMultipleType :=
  fun f ts => hasBar_disguise f 0 ts

@[simp] theorem ignoresDisguise_isMapType : IgnoresDisguise isMapType := by
  intro f ts
  cases ts with
  | nil => rfl
  | cons t ts => simp only [List.map_cons, isMapType, isMark_disguise, hasColon_disguise]

end Lookahead

end Heddle
