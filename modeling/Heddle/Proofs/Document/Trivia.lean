import Heddle.Proofs.Document.Composition
import Heddle.Proofs.Reading.Bridges
import Heddle.Proofs.Token.Fillings
import Heddle.Proofs.Tree.Pruned

/-!
# What trivia means

Trivia separates what it stands between, and a blank may combine two selectors. Beyond that the
grammar asks only whether there is trivia. So **how long a blank is never matters**, with or without
errors, and what is left of two trees that differ in their blanks is the same
(`Parsed.ofSource_blanks`).

Neither does it matter whether a comment stands in front of a blank or behind it, but for one rule:
a call without parentheses has a blank right behind its name, and a comment does not do. So **the
trees are the same unless such a call begins there** (`Parsed.ofSource_swapped`), and where one does
they can be different (`not_alike_swapped`).

In both cases the two sources are the same but for a gap between two tokens. That it is filled with
trivia in two ways, and that the fillings leave the tokens around it alone, is all that has to be
seen; the rest is what readings across a gap come to.
-/

set_option autoImplicit false

namespace Heddle

open Text Token

/-- As many errors, and the same trees as far as a view tells. What the errors say may differ,
since they name what was found. -/
def Parsed.Alike (view : View) (q q' : Parsed) : Prop :=
  q'.errors.length = q.errors.length ∧
    q'.root.map (·.outline view) = q.root.map (·.outline view)

/-! ## Sources with something in the middle -/

/-- Behind a text that has a byte order mark or none, there is text that has none. A mark would
have to be the first character, and here it is another one. -/
theorem openSource_behind {x : String} {c : Char} {cs : List Char} (hx : x.toList = c :: cs)
    (hc : c ≠ '\uFEFF') (a b : String) :
    openSource (a ++ (x ++ b)) =
      ((openSource a).1, (openSource a).2 ++ (x.toList ++ b.toList)) := by
  by_cases ha : a.toList = []
  · obtain rfl : a = "" := String.toList_eq_nil_iff.1 ha
    have hhead : (x ++ b).toList.head? ≠ some '\uFEFF' := by
      rw [String.toList_append, hx]
      exact fun h => hc (Option.some.inj h)
    rw [String.empty_append, openSource_of_ne hhead, String.toList_append]
    rfl
  · rw [openSource_append ha, String.toList_append]

theorem openSource_blanks (ds : Run isBlank) (a b : String) :
    openSource (a ++ (String.ofList ds.chars ++ b)) =
      ((openSource a).1, (openSource a).2 ++ (ds.chars ++ b.toList)) := by
  obtain ⟨c, cs, hds, hc⟩ := ds.exists_cons
  have hx : (String.ofList ds.chars).toList = ds.chars := String.toList_ofList
  rw [openSource_behind (hx.trans hds) (by rintro rfl; cases hc), hx]

/-- What is in front of the text of a source. -/
theorem exists_byteOrderMark (s : String) :
    ∃ bom, s.toList = bom ++ (openSource s).2 ∧ byteSize bom = (openSource s).1.byte := by
  unfold openSource
  split <;> rename_i hs
  · exact ⟨['\uFEFF'], hs, rfl⟩
  · exact ⟨[], rfl, rfl⟩

theorem tokenize_eq (s : String) : tokenize s = readAll (openSource s).1 (openSource s).2 := rfl

theorem openSource_start (s : String) :
    1 ≤ (openSource s).1.line ∧ 1 ≤ (openSource s).1.column := by
  unfold openSource
  split <;> exact ⟨Nat.le_refl 1, Nat.le_refl 1⟩

/-! ## Tokens without places -/

/-- Trivia has no places in it. A quoted text has those of its placeholders, and so would not be
known from its form without places. -/
theorem Token.of_unplaced {t : Token} {kind : TokenKind} {text : String}
    (h : t.unplaced = ⟨kind, text, .origin⟩) (hk : kind.isTrivia = true) :
    t.kind = kind ∧ t.text = text := by
  obtain ⟨kind', text', position⟩ := t
  obtain ⟨rfl, rfl⟩ := Token.mk.inj h |>.imp_right And.left
  refine ⟨?_, rfl⟩
  cases kind' <;> first | rfl | cases hk

/-- Two pieces of trivia among tokens without places. They are found among the tokens of the
source at the same numbers. -/
theorem Token.exists_of_unplaced {ts front back : List Token} {kind kind' : TokenKind}
    {x y : String} (hk : kind.isTrivia = true) (hk' : kind'.isTrivia = true)
    (h : ts.map unplaced = front ++ ⟨kind, x, .origin⟩ :: ⟨kind', y, .origin⟩ :: back) :
    ∃ front' t u back', ts = front' ++ t :: u :: back' ∧ front'.map unplaced = front ∧
      (t.kind = kind ∧ t.text = x) ∧ (u.kind = kind' ∧ u.text = y) ∧
      back'.map unplaced = back := by
  obtain ⟨front', rest, rfl, hfront, hrest⟩ := List.map_eq_append_iff.1 h
  obtain ⟨t, rest, rfl, ht, hrest⟩ := List.map_eq_cons_iff.1 hrest
  obtain ⟨u, back', rfl, hu, hback⟩ := List.map_eq_cons_iff.1 hrest
  exact ⟨front', t, u, back', rfl, hfront, of_unplaced ht hk, of_unplaced hu hk', hback⟩

theorem Token.spell_unplaced (ts : List Token) : spell (ts.map unplaced) = spell ts := by
  rw [spell, spell, List.flatMap_map]
  rfl

/-! ## Sources with a gap -/

namespace Gap

/-- Two sources that are the same but for a gap. Either they are alike, or a call without
parentheses begins in front of the gap in the one where the gap begins with a blank. Both theorems
of this module are this one for a gap of their own. -/
theorem ofSource_cases (g : Gap) {front : List Token} {p : Position} (hf : g.Front front p 0)
    {s s' : String} (hs : openSource s = (p, spell front ++ g.leftText))
    (hs' : openSource s' = (p, spell front ++ g.rightText)) (o : Options) :
    Parsed.Alike g.view (.ofSource o s) (.ofSource o s') ∨
      g.Calls (.ofText p (spell front ++ g.rightText) 0) (readStatements o s') := by
  have h := g.statements_outcome o (.front hf)
  rw [Parsed.ofSource_eq, Parsed.ofSource_eq]
  unfold readStatements
  rw [hs, hs']
  refine h.imp_left fun h => ⟨h.errors, ?_⟩
  simp only [Option.map_some, Node.outline]
  rw [h.forest]

/-! ## Blanks -/

/-- Of a blank only its role counts. -/
theorem outline_taken_blank {t : Token} (hk : t.kind = .blank)
    (hb : ∀ c ∈ t.chars, isBlank c = true) (tag : DataTag) :
    (Token.taken tag [t]).forest.outline .blankless = .ofData (TokenKind.role tag .blank) "" := by
  have hall : t.text.toList.all isBlank = true := List.all_eq_true.2 hb
  have hblank : (TokenKind.role tag .blank).isBlank t.text = true := by
    have hrole : TokenKind.role tag .blank =
        if tag = .combinator then .combinator else .whitespace := rfl
    rw [hrole]
    unfold DataTag.isBlank
    split
    · rw [hall]
      rfl
    · rfl
  have hview : View.blankless (TokenKind.role tag .blank) t.text =
      .ofData (TokenKind.role tag .blank) "" := by rw [View.blankless, hblank, if_pos rfl]
  rw [← hview, Token.taken, hk]
  exact Forest.outline_ofData _ _ _

/-- The tokens in front of a blank are in front of a gap. The last of them must not be a blank, as
it would go on into the gap. -/
theorem front_of_readAll {g : Gap} {p : Position} {cs : List Char} {front ts : List Token}
    (h : readAll p cs = front ++ ts) (hplace : g.place = p.past (spell front))
    (hleft : g.leftText = spell ts) (hlast : ∀ t ∈ front.getLast?, t.kind ≠ .blank) :
    g.Front front p 0 := by
  refine ⟨?_, hplace.symm, hlast, Nat.zero_le _⟩
  rw [hleft, hplace]
  exact readAll_cut h

/-- Other blanks in the place of a blank. The proof fills in the fields of a gap; what has to be
seen is that the new blanks are one token (`leads_blanks`) and that the text around them is cut
alike (`swaps`). -/
theorem exists_ofBlanks {p : Position} {cs : List Char} {front back : List Token} {t : Token}
    (h : readAll p cs = front ++ t :: back) (hk : t.kind = .blank) (hline : 1 ≤ p.line)
    (hcolumn : 1 ≤ p.column) (ds : Run isBlank)
    (hl : t.chars.head? = some '\n' → ds.chars.head? = some '\n') :
    ∃ g : Gap, g.view = .blankless ∧ g.left = [t] ∧ g.leftText = t.chars ++ spell back ∧
      g.rightText = ds.chars ++ spell back ∧ g.Front front p 0 := by
  have hbehind := readAll_behind h
  obtain ⟨⟨es, hes⟩, hapart⟩ := blanks_of_kind hbehind hk
  let u : Token := ⟨.blank, String.ofList ds.chars, p.past (spell front)⟩
  have hu : u.chars = ds.chars := String.toList_ofList
  have hspell (t : Token) : spell [t] = t.chars := List.append_nil _
  -- On both sides one blank token stands in front of the same rest.
  let g : Gap :=
    { view := .blankless
      place := p.past (spell front)
      left := [t]
      right := [u]
      rest := spell back
      line := Nat.le_trans hline (Position.line_le_past _ _)
      column := Position.column_le_past hcolumn _
      left_ne_nil := List.cons_ne_nil _ _
      length := rfl
      isTrivia_left := fun t' ht' => by
        rw [List.mem_singleton.1 ht', isTrivia, hk]
        rfl
      isTrivia_right := fun t' ht' => by
        rw [List.mem_singleton.1 ht']
        rfl
      read_left := @readAll_cut _ _ [t] _ hbehind
      read_right := by
        rw [hspell, hu]
        exact leads_blanks ds hapart _
      swaps := by
        rw [hspell, hspell, hu, ← hes]
        exact .of_blanks ds es (hes ▸ hl) _
      taken := fun tag => by
        rw [outline_taken_blank rfl (hu ▸ ds.forall_mem),
          outline_taken_blank hk (hes ▸ es.forall_mem)] }
  refine ⟨g, rfl, rfl, by rw [leftText, hspell], by rw [rightText, hspell, hu],
    front_of_readAll h rfl (by rw [leftText, hspell]; rfl) (kind_ne_blank_of_getLast? h hk)⟩

/-! ## A blank and a comment -/

/-- In either order a comment and a blank leave the same, which is nothing of the comment. -/
theorem outline_taken_swapped {c c' w w' : Token} (hc : c.kind = .blockComment)
    (hc' : c'.kind = .blockComment) (hw : w.kind = .blank) (hw' : w'.kind = .blank)
    (htext : w'.text = w.text) (tag : DataTag) :
    (Token.taken tag [w', c']).forest.outline .significant =
      (Token.taken tag [c, w]).forest.outline .significant := by
  have hdata (tag : DataTag) (text : String) :
      (Trace.ofData tag text).forest.outline .significant = View.significant tag text :=
    Forest.outline_ofData _ tag text
  have hcomment (text : String) :
      View.significant (TokenKind.role tag .blockComment) text = .nil := rfl
  have hnil : Trace.nil.forest.outline .significant = .nil := rfl
  simp only [Token.taken, Trace.forest_append, Forest.outline_append, hdata, hnil, hc, hc', hw, hw',
    htext, hcomment, Forest.nil_append, Forest.append_nil]

/-- A comment and a blank in the other order. The two sources are given by their tokens, so the
texts of the gap have to be read off the tokens first; then the fields of the gap are filled in as
for blanks. -/
theorem exists_ofSwapped {p : Position} {cs cs' : List Char} {front front' back back' : List Token}
    {c c' w w' : Token} (h : readAll p cs = front ++ c :: w :: back)
    (h' : readAll p cs' = front' ++ w' :: c' :: back')
    (hf : front'.map Token.unplaced = front.map Token.unplaced)
    (hb : back'.map Token.unplaced = back.map Token.unplaced)
    (hc : c.kind = .blockComment) (hc' : c'.kind = .blockComment) (hct : c'.text = c.text)
    (hw : w.kind = .blank) (hw' : w'.kind = .blank) (hwt : w'.text = w.text)
    (hline : 1 ≤ p.line) (hcolumn : 1 ≤ p.column) :
    ∃ g : Gap, g.view = .significant ∧ cs = spell front ++ g.leftText ∧
      cs' = spell front ++ g.rightText ∧ g.rightText = w.chars ++ (c.chars ++ spell back) ∧
      g.Front front p 0 := by
  have hspell {ts us : List Token} (he : us.map Token.unplaced = ts.map Token.unplaced) :
      spell us = spell ts := by rw [← spell_unplaced us, he, spell_unplaced]
  have htwo (t u : Token) : spell [t, u] = t.chars ++ u.chars := by
    rw [spell_cons, spell_cons, spell_nil, List.append_nil]
  have hplace : p.past (spell front') = p.past (spell front) := by rw [hspell hf]
  have hbehind := readAll_behind h
  have hbehind' := readAll_behind h'
  rw [hplace] at hbehind'
  have hchars : c'.chars = c.chars := congrArg String.toList hct
  have hchars' : w'.chars = w.chars := congrArg String.toList hwt
  obtain ⟨⟨ds, hds⟩, -⟩ := blanks_of_kind (@readAll_behind _ _ [c] _ hbehind) hw
  obtain ⟨body, hbody⟩ := chars_blockComment (by rw [h]; simp) hc
  let g : Gap :=
    { view := .significant
      place := p.past (spell front)
      left := [c, w]
      right := [w', c']
      rest := spell back
      line := Nat.le_trans hline (Position.line_le_past _ _)
      column := Position.column_le_past hcolumn _
      left_ne_nil := List.cons_ne_nil _ _
      length := rfl
      isTrivia_left := by simp [isTrivia, hc, hw, TokenKind.isTrivia]
      isTrivia_right := by simp [isTrivia, hc', hw', TokenKind.isTrivia]
      read_left := @readAll_cut _ _ [c, w] _ hbehind
      read_right := hspell hb ▸ @readAll_cut _ _ [w', c'] _ hbehind'
      swaps := by
        rw [htwo, htwo, hchars, hchars', hbody, ← hds, List.append_assoc, List.append_assoc]
        exact .of_comment ds body _
      taken := outline_taken_swapped hc hc' hw hw' hwt }
  have hleft : g.leftText = spell (c :: w :: back) := by
    rw [leftText, htwo, List.append_assoc]
    rfl
  have hright : g.rightText = w.chars ++ (c.chars ++ spell back) := by
    rw [rightText, htwo, hchars, hchars', List.append_assoc]
  refine ⟨g, rfl, ?_, ?_, hright, front_of_readAll h rfl hleft ?_⟩
  · rw [hleft, ← spell_append, ← h, spell_readAll]
  · have hcs := spell_readAll p cs'
    rw [h', spell_append, spell_cons, spell_cons, hspell hf, hspell hb, hchars, hchars'] at hcs
    rw [hright, hcs]
  -- The tokens in front differ in their places only, and in the other source a blank follows
  -- them.
  · intro t ht hk
    have hmap := congrArg List.getLast? hf
    rw [List.getLast?_map, List.getLast?_map, Option.mem_def.1 ht] at hmap
    obtain ⟨u, hu, heq⟩ := Option.map_eq_some_iff.1 hmap
    have hkind : u.unplaced = ⟨.blank, t.text, .origin⟩ := by rw [heq, unplaced, hk]; rfl
    exact kind_ne_blank_of_getLast? h' hw' u hu (of_unplaced hkind rfl).1

end Gap

/-- A blank cuts its source in two. The part in front of it opens as the source does, with the
tokens in front of the blank, and ends at the place of the blank. -/
theorem exists_cut_blank {s : String} {front back : List Token} {t : Token}
    (hread : readAll (openSource s).1 (openSource s).2 = front ++ t :: back)
    (hk : t.kind = .blank) :
    ∃ a b, s = a ++ t.text ++ b ∧ a.utf8ByteSize = t.position.byte ∧ b.toList = spell back ∧
      openSource a = ((openSource s).1, spell front) := by
  obtain ⟨bom, hs, hbom⟩ := exists_byteOrderMark s
  have hcut := spell_readAll (openSource s).1 (openSource s).2
  rw [hread, spell_append, spell_cons] at hcut
  have hposition := (readAll_eq_cons (readAll_behind hread)).1
  obtain ⟨⟨es, hes⟩, -⟩ := blanks_of_kind (readAll_behind hread) hk
  let a := String.ofList (bom ++ spell front)
  let b := String.ofList (spell back)
  have hb : b.toList = spell back := String.toList_ofList
  have htext : t.text = String.ofList es.chars := by rw [hes, chars, String.ofList_toList]
  have hsource : s = a ++ t.text ++ b := by
    refine String.toList_inj.1 ?_
    rw [String.toList_append, String.toList_append, String.toList_ofList, hb, hs, ← hcut]
    simp only [List.append_assoc]
    rfl
  refine ⟨a, b, hsource, ?_, hb, ?_⟩
  · rw [hposition, Position.byte_past, ← hbom, ← byteSize_append]
    exact utf8ByteSize_ofList _
  · have hopened := openSource_blanks es a b
    rw [← htext, ← String.append_assoc, ← hsource, hes, hb] at hopened
    refine Prod.ext (congrArg Prod.fst hopened).symm ?_
    rw [hopened] at hcut
    exact (List.append_cancel_right hcut).symm

/-- **The amount of blanks never matters**: with other blanks in the place of any blank of any
source, there are as many errors, and the tree is the same but for places and the texts of blanks.
Only a line feed at the beginning has to stay, since it may end a line comment. -/
theorem Parsed.ofSource_blanks (o : Options) {s : String} {t : Token} (ht : t ∈ tokenize s)
    (hk : t.kind = .blank) :
    ∃ a b, s = a ++ t.text ++ b ∧ a.utf8ByteSize = t.position.byte ∧
      ∀ w : Run isBlank, (t.chars.head? = some '\n' → w.chars.head? = some '\n') →
        Parsed.Alike .blankless (.ofSource o s)
          (.ofSource o (a ++ String.ofList w.chars ++ b)) := by
  obtain ⟨front, back, hread⟩ := List.append_of_mem ht
  rw [tokenize_eq] at hread
  obtain ⟨a, b, hsource, hbyte, hb, hplace⟩ := exists_cut_blank hread hk
  refine ⟨a, b, hsource, hbyte, fun w hw => ?_⟩
  obtain ⟨hline, hcolumn⟩ := openSource_start s
  obtain ⟨g, hview, hleft, hlt, hrt, hfront⟩ :=
    Gap.exists_ofBlanks hread hk hline hcolumn w hw
  -- The gap stands in both sources, filled in the one way and in the other.
  have hs₁ : openSource s = ((openSource s).1, spell front ++ g.leftText) := by
    have hcut := spell_readAll (openSource s).1 (openSource s).2
    rw [hread, spell_append, spell_cons] at hcut
    rw [hlt, hcut]
  have hs₂ : openSource (a ++ String.ofList w.chars ++ b) =
      ((openSource s).1, spell front ++ g.rightText) := by
    rw [String.append_assoc, openSource_blanks, hplace, hrt, hb]
  rcases g.ofSource_cases hfront hs₁ hs₂ o with h | h
  · exact hview ▸ h
  · exact absurd hk (h.1 t (by rw [hleft]; rfl))

/-- A blank that combines two selectors can be a line break and a tab. -/
theorem Parsed.ofSource_blanks_selector :
    ∃ a b, "a b->f(1);" = a ++ " " ++ b ∧ a.utf8ByteSize = 1 ∧
      Parsed.Alike .blankless (.ofSource {} "a b->f(1);")
        (.ofSource {} (a ++ String.ofList ['\n', '\t'] ++ b)) := by
  have ht : (⟨.blank, " ", ⟨1, 2, 1⟩⟩ : Token) ∈ tokenize "a b->f(1);" := by
    have hread : (tokenize "a b->f(1);")[1]? = some ⟨.blank, " ", ⟨1, 2, 1⟩⟩ := by cbv
    exact List.mem_of_getElem? hread
  obtain ⟨a, b, hs, hbyte, h⟩ := Parsed.ofSource_blanks {} ht rfl
  exact ⟨a, b, hs, hbyte, h ⟨['\n', '\t'], List.cons_ne_nil _ _, by decide⟩ fun _ => rfl⟩

/-- A call without parentheses begins with a name that ends where `rest` begins. -/
def CallsInFrontOf (rest : List Char) (o : Options) (source : String) : Prop :=
  ∃ before after place, ∃ name : Token,
    (readDocument o source).events = before ++ .start .singleArgumentCall :: after ∧
      (openSource source).2 = Event.chars before ++ (name.chars ++ rest) ∧
      read? false place (name.chars ++ rest) = some (name, rest) ∧ name.isName = true

/-- **The order of a blank and a comment next to it does not matter**, as long as the tokens
around them stay the same: there are as many errors, and the tree is the same but for places,
blanks and comments. The one exception is a call without parentheses that begins with the name in
front of them when the blank comes first: it needs the blank right behind its name. -/
theorem Parsed.ofSource_swapped (o : Options) {a c w b : String} {front back : List Token}
    (h : (tokenize (a ++ c ++ w ++ b)).map Token.unplaced =
      front ++ ⟨.blockComment, c, .origin⟩ :: ⟨.blank, w, .origin⟩ :: back)
    (h' : (tokenize (a ++ w ++ c ++ b)).map Token.unplaced =
      front ++ ⟨.blank, w, .origin⟩ :: ⟨.blockComment, c, .origin⟩ :: back) :
    Parsed.Alike .significant (.ofSource o (a ++ c ++ w ++ b)) (.ofSource o (a ++ w ++ c ++ b)) ∨
      CallsInFrontOf (w.toList ++ (c.toList ++ spell back)) o (a ++ w ++ c ++ b) := by
  obtain ⟨front₁, c₁, w₁, back₁, hread, hfront₁, ⟨hck₁, hct₁⟩, ⟨hwk₁, hwt₁⟩, hback₁⟩ :=
    exists_of_unplaced rfl rfl h
  obtain ⟨front₂, w₂, c₂, back₂, hread', hfront₂, ⟨hwk₂, hwt₂⟩, ⟨hck₂, hct₂⟩, hback₂⟩ :=
    exists_of_unplaced rfl rfl h'
  -- Neither of the two begins with a byte order mark.
  have hopen : openSource (a ++ c ++ w ++ b) =
      ((openSource a).1, (openSource a).2 ++ (c.toList ++ (w ++ b).toList)) := by
    have hmem : c₁ ∈ tokenize (a ++ c ++ w ++ b) := by rw [hread]; simp
    obtain ⟨body, hbody⟩ := chars_blockComment hmem hck₁
    rw [chars, hct₁] at hbody
    rw [String.append_assoc, String.append_assoc, openSource_behind hbody (by decide)]
  have hopen' : openSource (a ++ w ++ c ++ b) =
      ((openSource a).1, (openSource a).2 ++ (w.toList ++ (c ++ b).toList)) := by
    obtain ⟨⟨ds, hds⟩, -⟩ := blanks_of_kind (readAll_behind hread') hwk₂
    have hw : w = String.ofList ds.chars := by rw [hds, chars, hwt₂, String.ofList_toList]
    rw [String.append_assoc, String.append_assoc, hw, openSource_blanks, String.toList_ofList]
  rw [tokenize_eq, hopen] at hread
  rw [tokenize_eq, hopen'] at hread'
  obtain ⟨hline, hcolumn⟩ := openSource_start a
  obtain ⟨g, hview, hleft, hright, hrest, hfront⟩ := Gap.exists_ofSwapped hread hread'
    (hfront₂.trans hfront₁.symm) (hback₂.trans hback₁.symm) hck₁ hck₂ (hct₂.trans hct₁.symm)
    hwk₁ hwk₂ (hwt₂.trans hwt₁.symm) hline hcolumn
  replace hopen := hopen.trans (congrArg (Prod.mk _) hleft)
  replace hopen' := hopen'.trans (congrArg (Prod.mk _) hright)
  rcases g.ofSource_cases hfront hopen hopen' o with h | h
  · exact .inl (hview ▸ h)
  · obtain ⟨-, before, after, place, name, he, hn, hr, ht⟩ :=
      h.framed o.file .document (openSource (a ++ w ++ c ++ b)).1
    have hgap : g.rightText = w.toList ++ (c.toList ++ spell back) := by
      rw [hrest, chars, chars, hwt₁, hct₁, ← hback₁, spell_unplaced]
    rw [Tape.text_ofText] at ht
    rw [hgap] at hr ht hopen'
    exact .inr ⟨before, after, place, name, he, hopen' ▸ ht, hr, hn⟩

/-- In front of the sign of an assignment a comment and a blank may change places. -/
theorem Parsed.ofSource_swapped_assignment :
    (tokenize ("x" ++ "/*c*/" ++ " " ++ "=1;")).map Token.unplaced =
        [⟨.word, "x", .origin⟩] ++ ⟨.blockComment, "/*c*/", .origin⟩ :: ⟨.blank, " ", .origin⟩ ::
          [⟨.mark .equals, "=", .origin⟩, ⟨.number .integer, "1", .origin⟩,
            ⟨.mark .semicolon, ";", .origin⟩] ∧
      (tokenize ("x" ++ " " ++ "/*c*/" ++ "=1;")).map Token.unplaced =
        [⟨.word, "x", .origin⟩] ++ ⟨.blank, " ", .origin⟩ :: ⟨.blockComment, "/*c*/", .origin⟩ ::
          [⟨.mark .equals, "=", .origin⟩, ⟨.number .integer, "1", .origin⟩,
            ⟨.mark .semicolon, ";", .origin⟩] ∧
      Parsed.Alike .significant (.ofSource {} ("x" ++ "/*c*/" ++ " " ++ "=1;"))
        (.ofSource {} ("x" ++ " " ++ "/*c*/" ++ "=1;")) := by
  have h : (tokenize ("x" ++ "/*c*/" ++ " " ++ "=1;")).map Token.unplaced =
      [⟨.word, "x", .origin⟩] ++ ⟨.blockComment, "/*c*/", .origin⟩ :: ⟨.blank, " ", .origin⟩ ::
        [⟨.mark .equals, "=", .origin⟩, ⟨.number .integer, "1", .origin⟩,
          ⟨.mark .semicolon, ";", .origin⟩] := by cbv
  have h' : (tokenize ("x" ++ " " ++ "/*c*/" ++ "=1;")).map Token.unplaced =
      [⟨.word, "x", .origin⟩] ++ ⟨.blank, " ", .origin⟩ :: ⟨.blockComment, "/*c*/", .origin⟩ ::
        [⟨.mark .equals, "=", .origin⟩, ⟨.number .integer, "1", .origin⟩,
          ⟨.mark .semicolon, ";", .origin⟩] := by cbv
  have hno : (readDocument {} ("x" ++ " " ++ "/*c*/" ++ "=1;")).events.contains
      (.start .singleArgumentCall) = false := by cbv
  refine ⟨h, h', (Parsed.ofSource_swapped {} h h').resolve_right fun hcall => ?_⟩
  obtain ⟨before, after, _, _, hevents, -⟩ := hcall
  rw [hevents] at hno
  simp at hno

/-- Only where the blank comes first there is a call, and elsewhere an error. -/
theorem not_alike_swapped :
    (tokenize ("f" ++ "/*c*/" ++ " " ++ "1;")).map Token.unplaced =
        [⟨.word, "f", .origin⟩] ++ ⟨.blockComment, "/*c*/", .origin⟩ :: ⟨.blank, " ", .origin⟩ ::
          [⟨.number .integer, "1", .origin⟩, ⟨.mark .semicolon, ";", .origin⟩] ∧
      (tokenize ("f" ++ " " ++ "/*c*/" ++ "1;")).map Token.unplaced =
        [⟨.word, "f", .origin⟩] ++ ⟨.blank, " ", .origin⟩ :: ⟨.blockComment, "/*c*/", .origin⟩ ::
          [⟨.number .integer, "1", .origin⟩, ⟨.mark .semicolon, ";", .origin⟩] ∧
      ¬ Parsed.Alike .significant (.ofSource {} ("f" ++ "/*c*/" ++ " " ++ "1;"))
        (.ofSource {} ("f" ++ " " ++ "/*c*/" ++ "1;")) := by
  refine ⟨by cbv, by cbv, fun h => ?_⟩
  have hfirst : (Parsed.ofSource {} ("f" ++ "/*c*/" ++ " " ++ "1;")).errors.length = 1 := by cbv
  have hsecond : (Parsed.ofSource {} ("f" ++ " " ++ "/*c*/" ++ "1;")).errors.length = 0 := by cbv
  cases hfirst.symm.trans (h.1.symm.trans hsecond)

end Heddle
