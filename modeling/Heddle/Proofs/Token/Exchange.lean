import Heddle.Proofs.Token.Append
import Heddle.Proofs.Token.Stops

/-!
# Another text behind a boundary

If one text stands behind a boundary between two tokens, when can another one stand there and
leave the tokens in front of the boundary alone? No reader in front of it may go on into the new
text, and none may find in it what it looks for. A new text that begins with a blank is gone on
with by two readers only: that of blanks, and that of line comments, which ends at a line feed. And
what is looked for without being taken is the closing tag of a block of another language, so the
new text must not hold one that was not there.

**Under these conditions (`Text.Swaps`) the tokens in front of the boundary stay the same**
(`readAll_swap`), whether a boundary stands in a text or behind the digits of a color.
-/

set_option autoImplicit false

namespace Heddle

open Text

/-- Behind a boundary, the text `v` can stand in the place of `u`. The last two fields are about
the two readers that look further than the next character: a line comment goes on to the end of
the line, and an opening tag is one only if its closing tag is somewhere behind it. Nothing is
asked of `u` beyond `Stops`, so the roles of the texts are not symmetric. -/
structure Text.Swaps (u v : List Char) : Prop where
  ne_nil : u ≠ []
  stops : Stops u
  blank : ∃ d cs, v = d :: cs ∧ isBlank d = true
  /-- A line comment that ends in front of `u` ends in front of `v`. -/
  lineFeed : ∀ cs, u = '\n' :: cs → v.head? = some '\n'
  tags : ∀ name, (∀ c ∈ name, isAsciiLetter c = true) →
    '<' :: '/' :: (name ++ ['>']) <:+: v → '<' :: '/' :: (name ++ ['>']) <:+: u

/-- The new text begins with a blank, and a blank stops as `u` does. -/
theorem Text.Swaps.stops_right {u v : List Char} (h : Swaps u v) : Stops v := by
  obtain ⟨d, cs, rfl, hd⟩ := h.blank
  exact stops_of_isSeal (isSeal_of_isBlank hd) cs

namespace Lexeme

/-! ## Literals that end, once more -/

/-- Where a comment ends does not depend on what is behind it. -/
theorem commentBody?_again {cs text rest : List Char} (h : commentBody? cs = some (text, rest))
    (more : List Char) : commentBody? (text ++ more) = some (text, more) := by
  fun_induction commentBody? cs generalizing text rest with
  | case1 => cases h
  | case2 => cases h; rfl
  | case3 c cs hc ih =>
    obtain ⟨⟨text', _⟩, hbody, heq⟩ := Option.map_eq_some_iff.1 h
    cases heq
    obtain ⟨d, text', rfl⟩ : ∃ d ds, text' = d :: ds := by
      cases text' with
      | nil =>
        unfold commentBody? at hbody
        split at hbody
        · cases hbody
        · cases hbody
        · obtain ⟨_, _, heq⟩ := Option.map_eq_some_iff.1 hbody
          cases heq
      | cons d ds => exact ⟨d, ds, rfl⟩
    have hcs : d :: text' ++ rest = cs := commentBody?_append hbody
    rw [List.cons_append, commentBody?]
    · rw [ih hbody]
      rfl
    · intro ds hstar hslash
      exact hc (text' ++ rest) hstar (by rw [← hcs, (List.cons.inj hslash).1]; rfl)

/-- Where a raw text ends does not depend on what is behind it. -/
theorem rawBody?_again {cs text rest : List Char} (h : rawBody? cs = some (text, rest))
    (more : List Char) : rawBody? (text ++ more) = some (text, more) := by
  induction cs generalizing text rest with
  | nil => cases h
  | cons c cs ih =>
    rw [rawBody?] at h
    split at h <;> rename_i hc
    · cases h
      rw [List.singleton_append, rawBody?, if_pos hc]
    · obtain ⟨⟨text', rest'⟩, hbody, heq⟩ := Option.map_eq_some_iff.1 h
      cases heq
      rw [List.cons_append, rawBody?, if_neg hc, ih hbody]
      rfl

/-- A tag is not there if and only if it is no part of the text. -/
theorem throughTag?_eq_none_iff {tag cs : List Char} (hn : tag ≠ []) :
    throughTag? tag cs = none ↔ ¬ tag <:+: cs := by
  induction cs with
  | nil => simp [throughTag?, hn]
  | cons c cs ih =>
    rw [throughTag?, List.infix_cons_iff]
    split <;> rename_i hp
    · simp [List.isPrefixOf_iff_prefix.1 hp]
    · rw [Option.map_eq_none_iff, ih]
      rw [List.isPrefixOf_iff_prefix] at hp
      simp [hp]

/-- Where a block ends does not depend on what is behind it. A tag could only be found earlier if
it went over the end of what was taken, and it is too short for that. -/
theorem throughTag?_again {tag cs text rest : List Char} (hn : tag ≠ [])
    (h : throughTag? tag cs = some (text, rest)) (more : List Char) :
    throughTag? tag (text ++ more) = some (text, more) := by
  induction cs generalizing text rest more with
  | nil =>
    rw [throughTag?, if_neg (by simpa using hn)] at h
    cases h
  | cons c cs ih =>
    rw [throughTag?] at h
    split at h <;> rename_i hp
    · obtain ⟨b, tag', rfl⟩ := List.exists_cons_of_ne_nil hn
      cases h
      rw [List.cons_append, throughTag?, if_pos]
      · simp
      · exact List.isPrefixOf_iff_prefix.2 (List.prefix_append (b :: tag') more)
    · obtain ⟨⟨text', rest'⟩, hbody, heq⟩ := Option.map_eq_some_iff.1 h
      cases heq
      -- The tag is in the text that was taken, so one that began here would end in it too.
      have hlong : ¬ tag <+: c :: (text' ++ more) := by
        intro hl
        have hle := length_throughTag?_le (ih hbody [])
        rw [List.append_nil] at hle
        have hstops : tag <+: c :: text' :=
          List.prefix_of_prefix_length_le hl (List.prefix_append (c :: text') more)
            (Nat.le_succ_of_le hle)
        refine hp (List.isPrefixOf_iff_prefix.2 (hstops.trans ?_))
        rw [← throughTag?_append hbody]
        exact List.prefix_append (c :: text') rest
      rw [List.cons_append, throughTag?, if_neg (fun hl => hlong (List.isPrefixOf_iff_prefix.1 hl)),
        ih hbody]
      rfl

/-- A braced placeholder ends in front of a text that begins alike. It may end without its brace,
at the quote that closes the string, so one character behind it has to be there. -/
theorem braced_again {quote : Char} {depth : Nat} {cs inside left : List Char}
    (h : braced quote depth cs = (inside, left)) (hl : left ≠ []) {left' : List Char}
    (hh : left'.head? = left.head?) : braced quote depth (inside ++ left') = (inside, left') := by
  fun_induction braced quote depth cs generalizing inside left with
  | case1 | case2 =>
    cases h
    exact absurd rfl hl
  | case3 depth c cs inside rest heq ih =>
    cases h
    simp only [List.cons_append, braced, ih heq hl hh]
  | case4 depth cs inside rest heq h₁ h₂ ih =>
    cases h
    rw [List.cons_append, braced_cons (by decide), if_pos rfl, ih heq hl hh]
  | case5 cs h₁ h₂ hc =>
    cases h
    rfl
  | case6 cs depth inside rest heq h₁ h₂ hc ih =>
    cases h
    rw [List.cons_append, braced_cons (by decide), if_neg hc, if_pos rfl]
    simp only [ih heq hl hh]
  -- Here the string is closed, and the quote is not taken: it is what the two texts begin with.
  | case7 depth cs h₁ h₂ hb hr =>
    cases h
    obtain ⟨c, left', rfl⟩ : ∃ c ds, left' = c :: ds := by
      cases left' with
      | nil => cases hh
      | cons c ds => exact ⟨c, ds, rfl⟩
    cases hh
    rw [List.nil_append, braced_cons (ne_backslash h₁ h₂), if_neg hb, if_neg hr, if_pos rfl]
  | case8 depth c cs h₁ h₂ hb hr hq inside rest heq ih =>
    cases h
    rw [List.cons_append, braced_cons (ne_backslash h₁ h₂), if_neg hb, if_neg hr, if_neg hq,
      ih heq hl hh]

/-- A dotted name ends in front of a text that begins alike, for two characters if the first one is
a point. -/
theorem dotted_again {cs name left : List Char} (h : dotted cs = (name, left)) {left' : List Char}
    (hh : left'.head? = left.head?)
    (hdot : left.head? = some '.' → left'.tail.head? = left.tail.head?) :
    dotted (name ++ left') = (name, left') := by
  induction cs generalizing name left with
  | nil =>
    cases h
    cases left' with
    | nil => rfl
    | cons c left' => cases hh
  | cons c cs ih =>
    have hcs := dotted_append cs
    rw [dotted] at h
    split at h <;> rename_i hc
    · cases h
      have hhead : ((dotted cs).1 ++ left').head? = cs.head? := by
        rw [List.head?_append, hh, ← List.head?_append, hcs]
      rw [List.cons_append, dotted, hhead, if_pos hc, ih rfl hh hdot]
    · cases h
      cases left' with
      | nil => cases hh
      | cons d left' =>
        obtain rfl : d = c := Option.some.inj hh
        rw [List.nil_append, dotted, if_neg]
        by_cases hd : d = '.'
        · rw [show left'.head? = cs.head? from hdot (congrArg some hd)]
          exact hc
        · simpa [hd] using hc

/-- What stands at a percent sign ends in front of a text that begins alike. A point behind it is
taken only together with a name, so then the text has to go on behind the point. -/
theorem percent_again {quote : Char} {cs text rest : List Char}
    (h : (percent quote cs).left = text ++ rest) (hn : text ≠ [])
    (hdot : text.head? = some '.' → text.tail ≠ []) (more : List Char) :
    ∃ ds, (percent quote cs).taken ++ (text ++ more) = '%' :: ds ∧
      percent quote ds = { percent quote cs with left := text ++ more } := by
  obtain ⟨b, text, rfl⟩ := List.exists_cons_of_ne_nil hn
  cases cs with
  | nil => cases h
  | cons c cs =>
    -- The four forms of a sign: doubled, braced, named, and one that means nothing.
    by_cases hp : c = '%'
    · subst hp
      exact ⟨_, rfl, rfl⟩
    by_cases hb : c = '\x7b'
    · subst hb
      obtain ⟨inside, left, hbraced⟩ : ∃ inside left, braced quote 0 cs = (inside, left) :=
        ⟨_, _, rfl⟩
      simp only [percent, hbraced] at h ⊢
      subst h
      have hagain : braced quote 0 (inside ++ (b :: text ++ more)) = _ :=
        braced_again hbraced (List.cons_ne_nil _ _) rfl
      refine ⟨'\x7b' :: (inside ++ (b :: text ++ more)), rfl, ?_⟩
      simp only [hagain]
    · rw [percent_cons hp hb] at h ⊢
      split at h <;> rename_i hc
      · rw [if_pos hc]
        obtain ⟨name, left, hname⟩ : ∃ name left, dotted (c :: cs) = (name, left) := ⟨_, _, rfl⟩
        simp only [hname] at h ⊢
        subst h
        have hagain : dotted (name ++ (b :: text ++ more)) = _ :=
          dotted_again hname rfl fun hd => by
            obtain ⟨e, text, rfl⟩ := List.exists_cons_of_ne_nil (hdot hd)
            rfl
        obtain ⟨name, rfl⟩ : ∃ ds, name = c :: ds := by
          rw [dotted, if_pos (by rw [isWord_of_isNameStart hc]; rfl)] at hname
          exact ⟨_, (Prod.mk.inj hname).1.symm⟩
        refine ⟨c :: name ++ (b :: text ++ more), rfl, ?_⟩
        rw [List.cons_append] at hagain ⊢
        rw [percent_cons hp hb, if_pos hc, hagain]
      · rw [if_neg hc]
        obtain ⟨rfl, -⟩ := List.cons.inj h
        refine ⟨c :: text ++ more, rfl, ?_⟩
        rw [List.cons_append, percent_cons hp hb, if_neg hc]

/-- Where a quoted text ends does not depend on what is behind it, nor do its placeholders. The
induction is along the reader; at a placeholder it is the text still to be taken, up to the
closing quote, that both texts begin with. -/
theorem quotedBody?_again {quote : Char} {position : Position} {cs text rest : List Char}
    {ps : List Placeholder} (hquote : quote ≠ '.')
    (h : quotedBody? quote position cs = some (ps, text, rest)) (more : List Char) :
    quotedBody? quote position (text ++ more) = some (ps, text, more) := by
  fun_induction quotedBody? quote position cs generalizing ps text rest with
  | case1 | case2 => cases h
  | case3 position c cs ih =>
    obtain ⟨⟨ps', text', rest'⟩, hbody, heq⟩ := Option.map_eq_some_iff.1 h
    cases heq
    rw [List.cons_append, List.cons_append, quotedBody?, ih hbody]
    rfl
  | case4 position cs sign =>
    rename_i ih
    obtain ⟨⟨ps', text', rest'⟩, hbody, heq⟩ := Option.map_eq_some_iff.1 h
    cases heq
    have hcut : text' ++ rest = (percent quote cs).left := quotedBody?_append hbody
    -- The text that is left has at least its closing quote, which is no point.
    obtain ⟨body, hquoted, -⟩ := quotedBody?_spec hbody
    have hn : text' ≠ [] := by rw [hquoted]; simp
    have hdot : text'.head? = some '.' → text'.tail ≠ [] := by
      rw [hquoted]
      cases body with
      | nil => exact fun hd => absurd (Option.some.inj hd) hquote
      | cons d body => simp
    obtain ⟨ds, hds, hpercent⟩ := percent_again hcut.symm hn hdot more
    have hrest : quotedBody? quote (position.past (percent quote cs).taken) (text' ++ more) =
        some (ps', text', more) := ih hbody
    rw [List.append_assoc, hds, quotedBody?, hpercent]
    simp only [hrest]
    rfl
  | case5 position cs h₁ h₂ h₃ =>
    cases h
    rw [List.singleton_append, quotedBody?_cons (ne_backslash h₁ h₂) h₃, if_pos rfl]
  | case6 position c cs h₁ h₂ h₃ hc ih =>
    obtain ⟨⟨ps', text', rest'⟩, hbody, heq⟩ := Option.map_eq_some_iff.1 h
    cases heq
    rw [List.cons_append, quotedBody?_cons (ne_backslash h₁ h₂) h₃, if_neg hc, ih hbody]
    rfl

/-! ## Swapping what follows -/

variable {u v : List Char} (h : Swaps u v)

/-- The lexeme of a text in front of `u` and that of the text in front of `v` are the same.
Nothing is said of a lexeme that reaches into `u`: the boundary is then inside of a token. -/
def Swapped (u v : List Char) (l l' : Lexeme) : Prop :=
  ∀ r, l.rest = r ++ u → l' = { l with rest := r ++ v }

/-- A lexeme that was read without a look at what follows. -/
theorem swapped_extend (l : Lexeme) : Swapped u v (l.extend u) (l.extend v) := by
  intro r hr
  obtain rfl : l.rest = r := List.append_cancel_right hr
  rfl

/-- A run that ends in front of `u` ends in front of `v`. Only if it ends at the boundary itself
does the class of the run matter (`hstop`), and for blanks the readers exclude that case. -/
theorem span_swap {member : Char → Bool} {cs r : List Char}
    (hr : (cs ++ u).dropWhile member = r ++ u)
    (hstop : r = [] → (∀ c ∈ u.head?, member c = false) → ∀ c ∈ v.head?, member c = false) :
    (cs ++ v).takeWhile member = (cs ++ u).takeWhile member ∧
      (cs ++ v).dropWhile member = r ++ v := by
  by_cases hd : cs.dropWhile member = []
  · have hall := List.dropWhile_eq_nil_iff.1 hd
    rw [List.dropWhile_append_of_pos hall] at hr
    have hlen := (congrArg List.length hr).symm.trans_le (List.length_dropWhile_le member u)
    obtain rfl : r = [] := by
      rw [List.length_append] at hlen
      exact List.length_eq_zero_iff.1 (by omega)
    have hu : ∀ c ∈ u.head?, member c = false := by
      intro c hc
      have hhead := List.head?_dropWhile_not member u
      rw [hr, List.nil_append, hc] at hhead
      simpa using hhead
    obtain ⟨htu, -⟩ := span_stops hu cs
    obtain ⟨htv, hdv⟩ := span_stops (hstop rfl hu) cs
    rw [htu, htv, hdv, hd]
    exact ⟨rfl, rfl⟩
  · obtain ⟨htu, hdu⟩ := span_append hd u
    obtain ⟨htv, hdv⟩ := span_append hd v
    rw [hdu] at hr
    rw [htu, htv, hdv, List.append_cancel_right hr]
    exact ⟨rfl, rfl⟩

include h

/-- A literal that does not end takes everything, and so goes on into what follows. -/
theorem swapped_of_nil {l l' : Lexeme} (hl : l.rest = []) : Swapped u v l l' :=
  fun _ hr => absurd (List.append_eq_nil_iff.1 (hr.symm.trans hl)).2 h.ne_nil

/-- A reader that stops in front of both texts takes the same. -/
theorem swapped_of_stops {f : List Char → Lexeme}
    (hf : ∀ {more}, Stops more → ∀ cs, f (cs ++ more) = (f cs).extend more) (cs : List Char) :
    Swapped u v (f (cs ++ u)) (f (cs ++ v)) := by
  rw [hf h.stops, hf h.stops_right]
  exact swapped_extend _

/-- A closing tag is not put together across a blank. So one that is not found behind a name is
not found there with the new text, unless it is all in the new text, which `Swaps.tags` excludes.
-/
theorem throughTag?_swap {name cs : List Char} (hname : ∀ c ∈ name, isAsciiLetter c = true)
    (hn : throughTag? ('<' :: '/' :: (name ++ ['>'])) (cs ++ u) = none) :
    throughTag? ('<' :: '/' :: (name ++ ['>'])) (cs ++ v) = none := by
  have hseal := isSeal_of_mem_tag hname
  have htags := h.tags name hname
  have hne : '<' :: '/' :: (name ++ ['>']) ≠ [] := List.cons_ne_nil _ _
  -- Of the tag only two facts are used from here on, so the induction is on the text in front.
  generalize '<' :: '/' :: (name ++ ['>']) = tag at hn hseal htags hne ⊢
  induction cs with
  | nil =>
    rw [List.nil_append, throughTag?_eq_none_iff hne] at hn ⊢
    exact fun hv => hn (htags hv)
  | cons c cs ih =>
    rw [throughTag?_eq_none_iff hne, List.cons_append, List.infix_cons_iff, not_or,
      ← throughTag?_eq_none_iff hne] at hn ⊢
    refine ⟨fun hp => ?_, ih hn.2⟩
    -- A tag that began here would end in front of the blank, and then it was there before.
    rcases List.prefix_or_prefix_of_prefix hp (List.prefix_append (c :: cs) v) with hl | hr
    · exact hn.1 (hl.trans (List.prefix_append (c :: cs) u))
    · obtain ⟨more, rfl⟩ := hr
      obtain ⟨d, v, rfl, hd⟩ := h.blank
      cases more with
      | nil => exact hn.1 (by rw [List.append_nil]; exact List.prefix_append (c :: cs) u)
      | cons e more =>
        obtain ⟨rest, hrest⟩ := hp
        have he : e = d := by
          rw [← List.cons_append, List.append_assoc] at hrest
          exact (List.cons.inj (List.append_cancel_left hrest)).1
        have hno := hseal e (List.mem_append_right _ List.mem_cons_self)
        rw [he, isSeal_of_isBlank hd] at hno
        cases hno

/-- A block of another language ends where it did, and what was none is none. The second half
matters as much as the first: a `<` that begins no block is a comparison, and must not become a
block when its closing tag appears. -/
theorem foreign?_swap (cs : List Char) :
    (foreign? (cs ++ u) = none → foreign? (cs ++ v) = none) ∧
      ∀ l, foreign? (cs ++ u) = some l → ∀ r, l.rest = r ++ u →
        foreign? (cs ++ v) = some { l with rest := r ++ v } := by
  have hw (c : Char) : isAsciiLetter c = true → isWord c = true := isWord_of_isAsciiLetter
  have hspan {more : List Char} (hs : Stops more) := span_stops (hs.not_mem hw) cs
  have hletters : ∀ c ∈ cs.takeWhile isAsciiLetter, isAsciiLetter c = true :=
    List.all_eq_true.1 List.all_takeWhile
  have hnone {more : List Char} (hs : Stops more)
      (hn : (cs.takeWhile isAsciiLetter).isEmpty = true ∨
        (cs.dropWhile isAsciiLetter ++ more).head? ≠ some '>') : foreign? (cs ++ more) = none :=
    foreign?_of_no_tag (by rwa [(hspan hs).1, (hspan hs).2])
  -- Without an opening tag neither text has a block. It is seen in front of the boundary, as
  -- letters and `>` do not begin a text that `Stops`.
  have hboth (hn : ∀ {more}, Stops more → (cs.takeWhile isAsciiLetter).isEmpty = true ∨
      (cs.dropWhile isAsciiLetter ++ more).head? ≠ some '>') :
      (foreign? (cs ++ u) = none → foreign? (cs ++ v) = none) ∧
        ∀ l, foreign? (cs ++ u) = some l → ∀ r, l.rest = r ++ u →
          foreign? (cs ++ v) = some { l with rest := r ++ v } := by
    rw [hnone h.stops (hn h.stops), hnone h.stops_right (hn h.stops_right)]
    exact ⟨id, nofun⟩
  -- What is left is an opening tag, and then its closing tag decides.
  cases hn : (cs.takeWhile isAsciiLetter).isEmpty with
  | true => exact hboth fun _ => .inl hn
  | false =>
    cases hc : cs.dropWhile isAsciiLetter with
    | nil => exact hboth fun hs => .inr (by rw [hc]; exact hs.ne (by decide))
    | cons c body =>
      by_cases hgt : c = '>'
      · subst hgt
        have htag {more : List Char} (hs : Stops more) := @foreign?_of_tag (cs ++ more)
          (body ++ more) (by rw [(hspan hs).1, hn]) (by rw [(hspan hs).2, hc]; rfl)
        rw [htag h.stops, htag h.stops_right, (hspan h.stops).1, (hspan h.stops_right).1]
        refine ⟨fun hno => ?_, fun l hl r hr => ?_⟩
        · rw [throughTag?_swap h hletters (Option.map_eq_none_iff.1 hno)]
          rfl
        · obtain ⟨⟨text, rest⟩, hthrough, rfl⟩ := Option.map_eq_some_iff.1 hl
          obtain rfl : rest = r ++ u := hr
          have hcut := throughTag?_append hthrough
          rw [← List.append_assoc, List.append_cancel_right_eq] at hcut
          rw [← hcut, List.append_assoc, throughTag?_again (List.cons_ne_nil _ _) hthrough]
          rfl
      · exact hboth fun _ => .inr (by rw [hc]; simpa using hgt)

/-- Where a line comment ends a line ends, and there is the new text too. -/
theorem lineComment_swap {cs r : List Char} (hr : (cs ++ u).dropWhile (· != '\n') = r ++ u) :
    (cs ++ v).takeWhile (· != '\n') = (cs ++ u).takeWhile (· != '\n') ∧
      (cs ++ v).dropWhile (· != '\n') = r ++ v := by
  refine span_swap hr fun _ hu c hc => ?_
  obtain ⟨d, u', rfl⟩ := List.exists_cons_of_ne_nil h.ne_nil
  have hd : d = '\n' := by simpa using hu d rfl
  rw [h.lineFeed u' (by rw [hd])] at hc
  cases hc
  rfl

/-- What a slash begins does not go on into what follows, and so neither does it there. -/
theorem slash_swap (cs : List Char) : Swapped u v (slash (cs ++ u)) (slash (cs ++ v)) := by
  match cs with
  | [] =>
    have hv : v.head? ≠ some '/' := by
      obtain ⟨d, cs, rfl, hd⟩ := h.blank
      intro hslash
      cases hslash
      cases hd
    rw [List.nil_append, List.nil_append, slash_of_ne hv (h.stops_right.ne (by decide))]
    by_cases hu : u.head? = some '/'
    · -- The slash would be the first of a comment, and that would hold the boundary.
      obtain ⟨cs, rfl⟩ : ∃ cs, u = '/' :: cs := by
        cases u with
        | nil => cases hu
        | cons c cs =>
          cases hu
          exact ⟨cs, rfl⟩
      intro r hr
      have hlen := (congrArg List.length hr).symm.trans_le (List.length_dropWhile_le _ cs)
      rw [List.length_append, List.length_cons] at hlen
      omega
    · rw [slash_of_ne hu (h.stops.ne (by decide))]
      exact swapped_extend ⟨.mark .slash, ['/'], []⟩
  | c :: cs =>
    by_cases hc : c = '/'
    · subst hc
      intro r hr
      obtain ⟨htake, hdrop⟩ := lineComment_swap h (r := r) hr
      rw [List.cons_append, List.cons_append, slash, slash, htake, hdrop]
    by_cases hs : c = '*'
    · subst hs
      have hsome {more text rest : List Char} (hb : commentBody? (cs ++ more) = some (text, rest)) :
          slash ('*' :: cs ++ more) = ⟨.blockComment, '/' :: '*' :: text, rest⟩ := by
        rw [List.cons_append, slash, hb]
      cases hbody : commentBody? (cs ++ u) with
      | none =>
        refine swapped_of_nil h ?_
        rw [List.cons_append, slash, hbody]
      | some found =>
        obtain ⟨text, rest⟩ := found
        rw [hsome hbody]
        intro r hr
        obtain rfl : rest = r ++ u := hr
        have hcut := commentBody?_append hbody
        rw [← List.append_assoc, List.append_cancel_right_eq] at hcut
        refine hsome ?_
        rw [← hcut, List.append_assoc, commentBody?_again hbody]
    · rw [slash_of_ne (by simpa using hc) (by simpa using hs),
        slash_of_ne (by simpa using hc) (by simpa using hs)]
      exact swapped_extend ⟨.mark .slash, ['/'], c :: cs⟩

/-- A `<` begins a block, or it is a mark, alone or with an equals sign behind it. -/
theorem angle_swap (cs : List Char) : Swapped u v (angle (cs ++ u)) (angle (cs ++ v)) := by
  obtain ⟨hnone, hsome⟩ := foreign?_swap h cs
  have hblock {more : List Char} {l : Lexeme} (hl : foreign? (cs ++ more) = some l) :
      angle (cs ++ more) = l := by
    unfold angle
    rw [hl]
  cases hf : foreign? (cs ++ u) with
  | some l =>
    intro r hr
    rw [hblock hf] at hr ⊢
    exact hblock (hsome l hf r hr)
  | none =>
    -- No block: what follows the sign decides, and at the boundary neither text begins with an
    -- equals sign.
    cases cs with
    | nil =>
      rw [angle_of_none hf (h.stops.ne (by decide)),
        angle_of_none (hnone hf) (h.stops_right.ne (by decide))]
      exact swapped_extend ⟨.mark .less, ['<'], []⟩
    | cons c cs =>
      by_cases hc : c = '='
      · subst hc
        have hpair {more : List Char} (hl : foreign? ('=' :: cs ++ more) = none) :
            angle ('=' :: cs ++ more) = ⟨.mark .lessEqual, ['<', '='], cs ++ more⟩ := by
          unfold angle
          rw [hl]
          rfl
        rw [hpair hf, hpair (hnone hf)]
        exact swapped_extend ⟨.mark .lessEqual, ['<', '='], cs⟩
      · rw [angle_of_none hf (by simpa using hc), angle_of_none (hnone hf) (by simpa using hc)]
        exact swapped_extend ⟨.mark .less, ['<'], c :: cs⟩

/-- A quoted text that ends in front of the boundary; one that does not end takes everything. -/
theorem quoted_swap (style : QuoteStyle) (position : Position) (cs : List Char) :
    Swapped u v (quoted style position (cs ++ u)) (quoted style position (cs ++ v)) := by
  have hquote : style.mark ≠ '.' := by cases style <;> decide
  unfold quoted
  cases hq : quotedBody? style.mark (position.after style.mark) (cs ++ u) with
  | none => exact swapped_of_nil h rfl
  | some found =>
    obtain ⟨ps, text, rest⟩ := found
    intro r hr
    obtain rfl : rest = r ++ u := hr
    have hcut := quotedBody?_append hq
    rw [← List.append_assoc, List.append_cancel_right_eq] at hcut
    rw [← hcut, List.append_assoc, quotedBody?_again hquote hq]

/-- The same for a raw text. -/
theorem raw_swap (cs : List Char) : Swapped u v (raw (cs ++ u)) (raw (cs ++ v)) := by
  unfold raw
  cases hq : rawBody? (cs ++ u) with
  | none => exact swapped_of_nil h rfl
  | some found =>
    obtain ⟨text, rest⟩ := found
    intro r hr
    obtain rfl : rest = r ++ u := hr
    have hcut := rawBody?_append hq
    rw [← List.append_assoc, List.append_cancel_right_eq] at hcut
    rw [← hcut, List.append_assoc, rawBody?_again hq]

/-- **What a character begins in front of a boundary it begins there as well**, as long as blanks
do not go on across it. This puts the readers together: besides that of blanks, five stop at the
boundary by themselves (`swapped_of_stops`), and for the other four there is a lemma above. -/
theorem scan_swap {preferHex : Bool} {position : Position} {c : Char} {cs r : List Char}
    (hr : (scan preferHex position c (cs ++ u)).rest = r ++ u)
    (hblank : (scan preferHex position c (cs ++ u)).kind = .blank → r ≠ []) :
    scan preferHex position c (cs ++ v) =
      { scan preferHex position c (cs ++ u) with rest := r ++ v } := by
  by_cases hb : isBlank c = true
  · have hrun (more : List Char) :
        scan preferHex position c (cs ++ more) = run .blank isBlank (c :: cs ++ more) := by
      rw [scan, if_pos hb, List.cons_append]
    rw [hrun] at hr hblank
    obtain ⟨htake, hdrop⟩ := span_swap hr fun hnil => absurd hnil (hblank rfl)
    rw [hrun, hrun, run, run, htake, hdrop]
  refine (?_ : Swapped u v (scan preferHex position c (cs ++ u))
    (scan preferHex position c (cs ++ v))) r hr
  apply scan_alike (R := Swapped u v)
  case hblank => exact fun hblank => absurd hblank hb
  case hhex => exact fun _ _ => swapped_of_stops h hexRun_stops (c :: cs)
  case hword => exact fun _ => swapped_of_stops h word_stops (c :: cs)
  case hnumber => exact fun _ => swapped_of_stops h number_stops (c :: cs)
  case hquoted => exact fun style _ => quoted_swap h style position cs
  case hraw => exact fun _ => raw_swap h cs
  case hslash => exact fun _ => slash_swap h cs
  case hangle => exact fun _ => angle_swap h cs
  case hpoints => exact fun _ => swapped_of_stops h points_stops cs
  case hoperator => exact swapped_of_stops h (fun hs => operator_stops hs c) cs

end Lexeme

/-! ## All tokens in front -/

namespace Token

/-- The first token, and those of what is left. -/
theorem readAll_of_read? {p : Position} {cs rest : List Char} {t : Token}
    (h : read? false p cs = some (t, rest)) : readAll p cs = t :: readAll t.behind rest := by
  cases cs with
  | nil => cases h
  | cons c cs =>
    obtain ⟨rfl, rfl⟩ := Prod.mk.inj (Option.some.inj h)
    rw [readAll_cons, behind, Lexeme.chars_token]
    rfl

/-- The first of the tokens of a text is what is read there. -/
theorem exists_read? {p : Position} {cs : List Char} {t : Token} {ts : List Token}
    (h : readAll p cs = t :: ts) :
    ∃ rest, read? false p cs = some (t, rest) ∧ ts = readAll t.behind rest := by
  cases cs with
  | nil =>
    rw [readAll_nil] at h
    cases h
  | cons c cs =>
    obtain ⟨rest, hr⟩ : ∃ rest, read? false p (c :: cs) =
        some ((Lexeme.scan false p c cs).token p, rest) := ⟨_, rfl⟩
    rw [readAll_of_read? hr] at h
    obtain ⟨rfl, rfl⟩ := List.cons.inj h
    exact ⟨rest, hr, rfl⟩

variable {u v : List Char} (h : Swaps u v)
include h

/-- A token that ends in front of a boundary is the same, in whichever way it is read. -/
theorem read?_swap {preferHex : Bool} {p : Position} {cs rest : List Char} {t : Token}
    (hr : read? preferHex p (cs ++ u) = some (t, rest ++ u)) (hcs : cs ≠ [])
    (hblank : t.kind = .blank → rest ≠ []) :
    read? preferHex p (cs ++ v) = some (t, rest ++ v) := by
  obtain ⟨c, cs, rfl⟩ := List.exists_cons_of_ne_nil hcs
  rw [List.cons_append, read?] at hr ⊢
  obtain ⟨rfl, hrest⟩ := Prod.mk.inj (Option.some.inj hr)
  rw [Lexeme.scan_swap h hrest hblank]
  rfl

/-- **The tokens in front of a boundary stay the same.** The induction is on these tokens, each of
them by `read?_swap`. The last one must not be a blank, as the new text begins with one and the
two would be one token. -/
theorem readAll_swap {p : Position} {front : List Token}
    (hu : readAll p (spell front ++ u) = front ++ readAll (p.past (spell front)) u)
    (hlast : ∀ t ∈ front.getLast?, t.kind ≠ .blank) :
    readAll p (spell front ++ v) = front ++ readAll (p.past (spell front)) v := by
  induction front generalizing p with
  | nil => rfl
  | cons t front ih =>
    obtain ⟨hp, hne, -⟩ := readAll_eq_cons hu
    obtain ⟨rest, hread, hrest⟩ := exists_read? hu
    obtain ⟨-, -, htext⟩ := read?_eq_some hread
    rw [spell_cons, List.append_assoc] at htext
    obtain rfl := List.append_cancel_left htext
    have hbehind : p.past (spell (t :: front)) = t.behind.past (spell front) := by
      rw [spell_cons, Position.past_append, behind, hp]
    rw [hbehind] at hrest ⊢
    -- A blank is not the last token in front, so something is left in front of the boundary.
    have hblank : t.kind = .blank → spell front ≠ [] := by
      intro hk hnil
      cases front with
      | nil => exact hlast t rfl hk
      | cons t' front =>
        obtain ⟨-, hne', -⟩ := readAll_eq_cons hrest.symm
        exact hne' (List.append_eq_nil_iff.1 hnil).1
    have hcs : spell (t :: front) ≠ [] := fun hnil => hne (List.append_eq_nil_iff.1 hnil).1
    rw [readAll_of_read? (read?_swap h hread hcs hblank), List.cons_append]
    refine congrArg (t :: ·) (ih hrest.symm fun t' ht' => hlast t' ?_)
    rw [List.getLast?_cons, Option.mem_def.1 ht']
    rfl

omit h in
/-- A token of a text is not empty. -/
theorem chars_ne_nil {p : Position} {cs : List Char} {t : Token} (ht : t ∈ readAll p cs) :
    t.chars ≠ [] := by
  obtain ⟨q, c, rest, rfl⟩ := exists_scan_of_mem ht
  rw [Lexeme.chars_token]
  exact Lexeme.text_scan_ne_nil false q c rest

omit h in
/-- A loose token of a text is no blank. -/
theorem Loose.kind_ne_blank {p : Position} {cs : List Char} {t : Token} (h : t.Loose)
    (ht : t ∈ readAll p cs) : t.kind ≠ .blank := by
  intro hk
  obtain ⟨c, rest, hc⟩ := List.exists_cons_of_ne_nil (chars_ne_nil ht)
  have hmem : c ∈ t.chars := hc ▸ List.mem_cons_self
  cases (isBlank_of_mem ht hk hmem).symm.trans (isBlank_of_isLoose (h c hmem))

omit h in
/-- The digits of a color end in front of the boundary, and behind them there are again tokens up
to the boundary. So a color does not leave the situation that `readAll_swap` is about, although
its digits are not cut as the tokens of the source are. The way back is `readAll_agree`: some
token of the source begins where a token behind the digits does. -/
theorem exists_behind_digits {p q : Position} {front : List Token} {t : Token} {rest : List Char}
    (hs : Stops u)
    (hu : readAll p (spell front ++ u) = front ++ readAll q u)
    (hlast : ∀ t ∈ front.getLast?, t.kind ≠ .blank)
    (hr : read? true p (spell front ++ u) = some (t, rest)) (hk : t.kind.isHexNumber = true) :
    ∃ front', rest = spell front' ++ u ∧
      readAll t.behind (spell front' ++ u) = front' ++ readAll q u ∧
      (∀ t ∈ front'.getLast?, t.kind ≠ .blank) ∧ spell front = t.chars ++ spell front' := by
  obtain ⟨hp, -, hcut⟩ := read?_eq_some hr
  have hloose := loose_of_read? hr hk
  have hstop : ∀ c ∈ u.head?, isLoose c = false := by
    intro c hc
    rcases hs c hc with hc | rfl | rfl
    · rcases Bool.or_eq_true_iff.1 hc with hc | hb
      · rw [beq_iff_eq.1 hc]
        decide
      · exact Bool.eq_false_iff.2 fun hl => by cases hb.symm.trans (isBlank_of_isLoose hl)
    · decide
    · decide
  -- `xs` is what the source has in the place of the digits, `ys` what is cut behind them until
  -- both agree.
  obtain ⟨xs, ys, zs, hx, hy, hlx, hly⟩ := readAll_agree p t.chars rest hloose
  rw [← hcut, hu] at hx
  have hbehind : p.past t.chars = t.behind := by rw [behind, hp]
  rw [hbehind] at hy
  obtain ⟨mid, rfl, hzs⟩ : ∃ mid, front = xs ++ mid ∧ zs = mid ++ readAll q u := by
    rcases List.append_eq_append_iff.1 hx with ⟨more, hxs, hmore⟩ | ⟨mid, hfront, hzs⟩
    · -- No loose token begins at the boundary.
      cases more with
      | nil => exact ⟨[], by rw [hxs]; simp, hmore.symm⟩
      | cons x more =>
        obtain ⟨-, hne, after, htext, -⟩ := readAll_eq_cons hmore
        obtain ⟨c, cs, hc⟩ := List.exists_cons_of_ne_nil hne
        have hno := hstop c (by rw [htext, hc]; rfl)
        rw [hlx x (hxs ▸ List.mem_append_right _ List.mem_cons_self) c
          (hc ▸ List.mem_cons_self)] at hno
        cases hno
    · exact ⟨mid, hfront, hzs⟩
  rw [hzs, ← List.append_assoc] at hy
  have hrest : rest = spell (ys ++ mid) ++ u := by
    have hspell := spell_readAll t.behind rest
    rw [hy, spell_append _ (readAll q u), spell_readAll] at hspell
    exact hspell.symm
  refine ⟨ys ++ mid, hrest, hrest ▸ hy, fun t' ht' => ?_, ?_⟩
  · cases mid with
    | nil =>
      rw [List.append_nil] at ht'
      have hmem := List.mem_of_getLast? ht'
      have hread : t' ∈ readAll t.behind rest := by
        rw [hy]
        exact List.mem_append_left _ (List.mem_append_left _ hmem)
      exact (hly t' hmem).kind_ne_blank hread
    | cons m mid =>
      refine hlast t' ?_
      rw [List.getLast?_append, List.getLast?_cons, Option.some_or] at ht' ⊢
      exact ht'
  · rw [hrest, ← List.append_assoc] at hcut
    exact List.append_cancel_right hcut

/-- The digits of a color at the beginning of a text, and what is behind them. Reading a color is
a question to the text and not to the tokens on the tape. -/
def digits? (p : Position) (cs : List Char) : Option (Token × List Char) :=
  (read? true p cs).filter (·.1.kind.isHexNumber)

omit h in
/-- At a character the answer is that of the reader which the character calls. -/
theorem digits?_cons {p : Position} {c : Char} {cs : List Char} :
    digits? p (c :: cs) = if (Lexeme.scan true p c cs).kind.isHexNumber then
      some ((Lexeme.scan true p c cs).token p, (Lexeme.scan true p c cs).rest) else none := rfl

omit h in
/-- Only a letter or a digit can begin the digits of a color. -/
theorem digits?_eq_none {p : Position} {c : Char} {cs : List Char}
    (hc : ¬ (isNameStart c = true ∨ isDigit c = true)) : digits? p (c :: cs) = none := by
  rw [digits?_cons, if_neg fun hk => hc (Lexeme.head_of_isHexNumber hk)]

omit h in
/-- The digits of a color are not looked for behind a boundary. -/
theorem digits?_stops {more : List Char} (hs : Stops more) (p : Position) (cs : List Char) :
    digits? p (cs ++ more) = (digits? p cs).map fun (t, rest) => (t, rest ++ more) := by
  cases cs with
  | nil =>
    cases more with
    | nil => rfl
    | cons c more =>
      refine digits?_eq_none fun hc => ?_
      cases (hc.elim isWord_of_isNameStart isWord_of_isDigit).symm.trans
        (hs.not_mem (fun _ hw => hw) c rfl)
  | cons c cs =>
    by_cases hc : isNameStart c = true ∨ isDigit c = true
    -- A letter or a digit goes to a reader of words or numbers, and these stop in front of
    -- `more`.
    · have hscan : Lexeme.scan true p c (cs ++ more) = (Lexeme.scan true p c cs).extend more := by
        have hblank : ¬ isBlank c = true := by
          rw [isBlank_of_isLoose (isLoose_of_isWord
            (hc.elim isWord_of_isNameStart isWord_of_isDigit))]
          exact Bool.false_ne_true
        unfold Lexeme.scan
        rw [if_neg hblank, if_neg hblank, ← List.cons_append]
        by_cases hstart : isNameStart c = true
        · rw [if_pos hstart, if_pos hstart]
          split
          · exact Lexeme.hexRun_stops hs _
          · exact Lexeme.word_stops hs _
        · rw [if_neg hstart, if_neg hstart, if_pos (hc.resolve_left hstart),
            if_pos (hc.resolve_left hstart)]
          exact Lexeme.hexRun_stops hs _
      rw [List.cons_append, digits?_cons, digits?_cons, hscan]
      show (if (Lexeme.scan true p c cs).kind.isHexNumber = true then _ else _) = _
      split
      · rfl
      · rfl
    · rw [List.cons_append, digits?_eq_none hc, digits?_eq_none hc]
      rfl

end Token

/-- The digits of a color, and the text behind them cut anew. It is the reader of the parser
(`hexDigits`) in terms of `digits?`, and users know colors by this equation only. -/
theorem Attempt.hexDigits_eq {tape : Tape} (h : tape.Lexed) :
    hexDigits tape = match Token.digits? tape.place tape.text with
      | some (t, rest) => ofTaken (.ofData .color t.text, .ofText t.behind rest t.stop)
      | none => fail (tape.missing .hexColor) tape := by
  unfold hexDigits Token.digits? Tape.text
  cases hr : Token.read? true tape.place (Token.spell tape.ahead) with
  | none => rfl
  | some found =>
    obtain ⟨t, rest⟩ := found
    obtain ⟨hp, -, hc⟩ := Token.read?_eq_some hr
    replace hc : tape.text = t.chars ++ rest := hc
    have hstop : tape.stop = t.behind.past rest := by
      rw [h.stop, hc, Position.past_append, Token.behind, hp]
    simp only [Option.filter_some, Tape.ofText, hstop]
    split
    · rfl
    · rfl

end Heddle
