import Heddle.Proofs.Token.Stops

/-!
# A text behind a finished text

When does more text at the end leave the tokens in front of it alone? Not always: a word goes on,
a literal that did not end may end after all, and the search for a closing tag goes through the
whole text. **If the last token is a semicolon, every reader in front of it has stopped before it**
(`readAll_append`): no reader takes a semicolon but one that looks for its own end, and had such a
reader failed it would have taken everything, the semicolon with it. The closing tag is the only
thing that is looked for and not taken if it is not there, so the text behind must not hold one.
A blank at the end does as well, unless the text behind goes on with another.

Each reader has a lemma of its own that says what it does with more text behind a text that is
`Sealed`, that is, ends with a semicolon or a blank. Some of them need to know in addition that
something was left, which is known of every token but the last.
-/

set_option autoImplicit false

namespace Heddle

open Text

namespace Text

/-- Every letter of a language name is a word character. -/
theorem isWord_of_isAsciiLetter {c : Char} (h : isAsciiLetter c = true) : isWord c = true := by
  have ha : c.isAlpha = true := h
  have hc : c.toNat < 0x80 := by
    rcases Bool.or_eq_true_iff.1 ha with hupper | hlower
    · have hle := (of_decide_eq_true hupper).2
      exact Nat.lt_of_le_of_lt (UInt32.le_iff_toNat_le.1 hle) (by decide)
    · have hle := of_decide_eq_true (Bool.and_eq_true_iff.1 hlower).2
      exact Nat.lt_of_le_of_lt (UInt32.le_iff_toNat_le.1 hle) (by decide)
  simp [isWord, isLetterOrNumber, hc, Char.isAlphanum, ha]

/-- A class of word characters has no seal in it. -/
theorem not_of_isSeal {member : Char → Bool} (hm : ∀ c, member c = true → isWord c = true)
    {c : Char} (h : isSeal c = true) : member c = false := by
  apply Bool.eq_false_iff.2
  intro hc
  have hw := hm c hc
  rw [isWord_of_isSeal h] at hw
  cases hw

/-- The text ends with a semicolon or a blank. Which of the two it is does not matter to most
readers, since neither goes on with what they read. -/
def Sealed (cs : List Char) : Prop := ∃ front z, cs = front ++ [z] ∧ isSeal z = true

theorem Sealed.ne_nil {cs : List Char} (h : Sealed cs) : cs ≠ [] := by
  obtain ⟨front, z, rfl, -⟩ := h
  simp

/-- What is left of a sealed text is sealed, as long as something is left. -/
theorem Sealed.right {xs ys : List Char} (h : Sealed (xs ++ ys)) (hn : ys ≠ []) : Sealed ys := by
  obtain ⟨front, z, hf, hz⟩ := h
  obtain ⟨ys, y, rfl⟩ := List.eq_nil_or_concat ys |>.resolve_left hn
  rw [List.concat_eq_append, ← List.append_assoc] at hf
  obtain ⟨-, hy⟩ := List.append_inj' hf rfl
  exact ⟨ys, z, by rw [List.concat_eq_append, hy], hz⟩

theorem Sealed.tail {c : Char} {cs : List Char} (h : Sealed (c :: cs)) (hn : cs ≠ []) :
    Sealed cs :=
  @Sealed.right [c] cs h hn

/-- The last character is not lost: one that is no seal has something behind it. -/
theorem Sealed.tail_of_ne {c : Char} {cs : List Char} (h : Sealed (c :: cs))
    (hc : isSeal c = false) : Sealed cs := by
  apply h.tail
  rintro rfl
  obtain ⟨front, z, hf, hz⟩ := h
  cases front with
  | nil =>
    rw [(List.cons.inj hf).1, hz] at hc
    cases hc
  | cons x xs => cases xs <;> cases hf

variable {member : Char → Bool}

/-- A class of word characters stops in front of the end. -/
theorem Sealed.dropWhile {cs : List Char} (h : Sealed cs)
    (hm : ∀ c, member c = true → isWord c = true) : Sealed (cs.dropWhile member) := by
  have hall := @List.takeWhile_append_dropWhile _ member cs
  have hs := h
  rw [← hall] at hs
  apply hs.right
  intro hn
  rw [hn, List.append_nil] at hall
  obtain ⟨front, z, rfl, hz⟩ := h
  have hmem : z ∈ (front ++ [z]).takeWhile member := by
    rw [hall]
    exact List.mem_append_right _ (List.mem_singleton_self _)
  have hno := not_of_isSeal hm hz
  rw [List.all_eq_true.1 List.all_takeWhile _ hmem] at hno
  cases hno

/-- A run that has stopped stays where it is. -/
theorem span_append {cs : List Char} (h : cs.dropWhile member ≠ []) (more : List Char) :
    (cs ++ more).takeWhile member = cs.takeWhile member ∧
      (cs ++ more).dropWhile member = cs.dropWhile member ++ more := by
  induction cs with
  | nil => exact absurd rfl h
  | cons c cs ih =>
    by_cases hc : member c = true
    · rw [List.dropWhile_cons_of_pos hc] at h ⊢
      obtain ⟨ht, hd⟩ := ih h
      rw [List.cons_append, List.takeWhile_cons_of_pos hc, List.takeWhile_cons_of_pos hc,
        List.dropWhile_cons_of_pos hc, ht, hd]
      exact ⟨rfl, rfl⟩
    · rw [List.cons_append, List.takeWhile_cons_of_neg hc, List.takeWhile_cons_of_neg hc,
        List.dropWhile_cons_of_neg hc, List.dropWhile_cons_of_neg hc]
      exact ⟨rfl, rfl⟩

end Text

namespace Lexeme

variable {cs more : List Char}

/-! ## Words and numbers -/

theorem run_append (kind : TokenKind) {member : Char → Bool}
    (h : (run kind member cs).rest ≠ []) :
    run kind member (cs ++ more) = (run kind member cs).extend more := by
  obtain ⟨ht, hd⟩ := span_append h more
  rw [run, ht, hd]
  rfl

/-- A reader that stops in front of a seal stops at the end of a sealed text. -/
theorem append_of_stops {f : List Char → Lexeme}
    (hf : ∀ {more}, Stops more → ∀ cs, f (cs ++ more) = (f cs).extend more) (h : Sealed cs) :
    f (cs ++ more) = (f cs).extend more := by
  obtain ⟨front, z, rfl, hz⟩ := h
  rw [List.append_assoc, hf (stops_of_isSeal hz []), List.singleton_append,
    hf (stops_of_isSeal hz more)]
  simp [extend]

theorem number_append (h : Sealed cs) : number (cs ++ more) = (number cs).extend more :=
  append_of_stops number_stops h

theorem word_append (h : Sealed cs) : word (cs ++ more) = (word cs).extend more :=
  append_of_stops word_stops h

theorem hexRun_append (h : Sealed cs) : hexRun (cs ++ more) = (hexRun cs).extend more :=
  append_of_stops hexRun_stops h

/-! ## Literals that end -/

theorem braced_cons {quote : Char} {depth : Nat} {c : Char} (hc : c ≠ '\\') (cs : List Char) :
    braced quote depth (c :: cs) =
      if c = '\x7b' then
        (c :: (braced quote (depth + 1) cs).1, (braced quote (depth + 1) cs).2)
      else if c = '\x7d' then
        match depth with
        | 0 => ([c], cs)
        | depth + 1 => (c :: (braced quote depth cs).1, (braced quote depth cs).2)
      else if c = quote then ([], c :: cs)
      else (c :: (braced quote depth cs).1, (braced quote depth cs).2) := by
  rw [braced.eq_def]
  split
  · rename_i heq
    cases heq
  · rename_i heq
    exact absurd (List.cons.inj heq).1 hc
  · rename_i heq
    exact absurd (List.cons.inj heq).1 hc
  · rename_i heq
    cases heq
    rfl

/-- A braced placeholder that has ended stays as it is. That it has ended is told by what it has
left. -/
theorem braced_extend {quote : Char} {depth : Nat} (h : (braced quote depth cs).2 ≠ []) :
    braced quote depth (cs ++ more) =
      ((braced quote depth cs).1, (braced quote depth cs).2 ++ more) := by
  fun_induction braced quote depth cs with
  | case1 | case2 => exact absurd rfl h
  | case3 depth c cs inside rest heq ih =>
    rw [heq] at ih
    simp only [List.cons_append, braced, ih h]
  | case4 depth cs inside rest heq h₁ h₂ ih =>
    rw [heq] at ih
    rw [List.cons_append, braced_cons (by decide), if_pos rfl, ih h]
  | case5 cs h₁ h₂ hc => rfl
  | case6 cs depth inside rest heq h₁ h₂ hc ih =>
    rw [heq] at ih
    rw [List.cons_append, braced_cons (by decide), if_neg hc, if_pos rfl]
    simp only [ih h]
  | case7 depth cs h₁ h₂ hl hr =>
    rw [List.cons_append, braced_cons (ne_backslash h₁ h₂), if_neg hl, if_neg hr, if_pos rfl]
  | case8 depth c cs h₁ h₂ hl hr hq inside rest heq ih =>
    rw [heq] at ih
    rw [List.cons_append, braced_cons (ne_backslash h₁ h₂), if_neg hl, if_neg hr, if_neg hq, ih h]

/-- A dotted name stops in front of the end. -/
theorem dotted_extend (h : Sealed cs) :
    Sealed (dotted cs).2 ∧ dotted (cs ++ more) = ((dotted cs).1, (dotted cs).2 ++ more) := by
  induction cs with
  | nil => exact absurd rfl h.ne_nil
  | cons c cs ih =>
    by_cases hc : isSeal c = true
    · -- No name goes on with a seal.
      have hno (cs : List Char) : dotted (c :: cs) = ([], c :: cs) := by
        have hdot : (c == '.') = false := by
          apply Bool.eq_false_iff.2
          intro hdot
          rw [beq_iff_eq.1 hdot] at hc
          exact absurd hc (by decide)
        rw [dotted, isWord_of_isSeal hc, hdot]
        rfl
      rw [List.cons_append, hno, hno]
      exact ⟨h, rfl⟩
    · have hcs := h.tail_of_ne (Bool.eq_false_iff.2 hc)
      obtain ⟨hs, hd⟩ := ih hcs
      have hhead : (cs ++ more).head? = cs.head? := by
        obtain ⟨d, cs', he⟩ := List.exists_cons_of_ne_nil hcs.ne_nil
        rw [he]
        rfl
      rw [List.cons_append, dotted, dotted, hhead]
      split
      · exact ⟨hs, by rw [hd]⟩
      · exact ⟨h, rfl⟩

theorem percent_cons {quote c : Char} (hp : c ≠ '%') (hb : c ≠ '\x7b') (cs : List Char) :
    percent quote (c :: cs) =
      if isNameStart c then ⟨'%' :: (dotted (c :: cs)).1, (dotted (c :: cs)).2, some false⟩
      else ⟨['%'], c :: cs, none⟩ := by
  unfold percent
  split
  · rename_i heq
    exact absurd (List.cons.inj heq).1 hp
  · rename_i heq
    exact absurd (List.cons.inj heq).1 hb
  · rename_i heq
    cases heq
    rfl
  · rename_i heq
    cases heq

/-- What stands at a percent sign, unless it takes everything. -/
theorem percent_extend {quote : Char} (h : Sealed cs) (hl : (percent quote cs).left ≠ []) :
    Sealed (percent quote cs).left ∧ percent quote (cs ++ more) =
      { percent quote cs with left := (percent quote cs).left ++ more } := by
  refine ⟨?_, ?_⟩
  · obtain ⟨front, z, hf, hz⟩ := h
    have hs : Sealed ('%' :: cs) := ⟨'%' :: front, z, by rw [hf]; rfl, hz⟩
    rw [← percent_append quote cs] at hs
    exact hs.right hl
  obtain ⟨c, cs, rfl⟩ := List.exists_cons_of_ne_nil h.ne_nil
  by_cases hp : c = '%'
  · subst hp
    rfl
  by_cases hb : c = '\x7b'
  · subst hb
    simp only [percent] at hl
    simp only [List.cons_append, percent, braced_extend hl]
  have hd := (@dotted_extend _ more h).2
  rw [List.cons_append] at hd ⊢
  rw [percent_cons hp hb, percent_cons hp hb, hd]
  split
  · rfl
  · rfl

/-- A quoted text that is closed stays as it is. The induction is along the reader, which looks at
one character or one placeholder at a time; a quoted text that is closed has something left behind
each of them, so that the text there is sealed again. -/
theorem quotedBody?_extend {quote : Char} {position : Position} {ps : List Placeholder}
    {text rest : List Char} (h : Sealed cs)
    (hq : quotedBody? quote position cs = some (ps, text, rest)) :
    quotedBody? quote position (cs ++ more) = some (ps, text, rest ++ more) := by
  -- Where nothing is left there is no closing quote.
  have hnil {quote : Char} {position : Position} {cs : List Char}
      {found : List Placeholder × List Char × List Char}
      (h : quotedBody? quote position cs = some found) : cs ≠ [] := by
    rintro rfl
    rw [quotedBody?] at h
    cases h
  fun_induction quotedBody? quote position cs generalizing ps text rest with
  | case1 | case2 => cases hq
  | case3 position c cs ih =>
    obtain ⟨⟨ps', text', rest'⟩, hbody, heq⟩ := Option.map_eq_some_iff.1 hq
    cases heq
    have hs : Sealed cs := (h.tail (by simp)).tail (hnil hbody)
    rw [List.cons_append, List.cons_append, quotedBody?, ih hs hbody]
    rfl
  | case4 position cs sign =>
    rename_i ih
    obtain ⟨⟨ps', text', rest'⟩, hbody, heq⟩ := Option.map_eq_some_iff.1 hq
    cases heq
    obtain ⟨hs, hsign⟩ := percent_extend (h.tail_of_ne (by decide)) (hnil hbody)
    have hrest : quotedBody? quote (position.past (percent quote cs).taken)
        ((percent quote cs).left ++ more) = some (ps', text', rest ++ more) := ih hs hbody
    rw [List.cons_append, quotedBody?, hsign]
    show Option.map _ (quotedBody? quote (position.past (percent quote cs).taken)
      ((percent quote cs).left ++ more)) = _
    rw [hrest]
    rfl
  | case5 position cs h₁ h₂ h₃ =>
    cases hq
    rw [List.cons_append, quotedBody?_cons (ne_backslash h₁ h₂) h₃, if_pos rfl]
  | case6 position c cs h₁ h₂ h₃ hc ih =>
    obtain ⟨⟨ps', text', rest'⟩, hbody, heq⟩ := Option.map_eq_some_iff.1 hq
    cases heq
    rw [List.cons_append, quotedBody?_cons (ne_backslash h₁ h₂) h₃, if_neg hc,
      ih (h.tail (hnil hbody)) hbody]
    rfl

/-- A comment that is closed stays as it is. -/
theorem commentBody?_extend {text rest : List Char} (h : commentBody? cs = some (text, rest)) :
    commentBody? (cs ++ more) = some (text, rest ++ more) := by
  fun_induction commentBody? cs generalizing text rest with
  | case1 => cases h
  | case2 => cases h; rfl
  | case3 c cs hc ih =>
    obtain ⟨⟨text', rest'⟩, hbody, heq⟩ := Option.map_eq_some_iff.1 h
    cases heq
    obtain ⟨d, cs, rfl⟩ : ∃ d rest, cs = d :: rest := by
      cases cs with
      | nil => cases hbody
      | cons d rest => exact ⟨d, rest, rfl⟩
    have hne : ∀ rest, c = '*' → d :: (cs ++ more) = '/' :: rest → False := by
      intro rest hc' hd
      exact hc cs hc' (by rw [(List.cons.inj hd).1])
    rw [List.cons_append, List.cons_append, commentBody?]
    · rw [List.cons_append] at ih
      rw [ih hbody]
      rfl
    · exact hne

theorem rawBody?_extend {text rest : List Char} (h : rawBody? cs = some (text, rest)) :
    rawBody? (cs ++ more) = some (text, rest ++ more) := by
  induction cs generalizing text rest with
  | nil => cases h
  | cons c cs ih =>
    rw [rawBody?] at h
    rw [List.cons_append, rawBody?]
    split at h <;> rename_i hc
    · cases h
      rw [if_pos hc]
    · obtain ⟨⟨text', rest'⟩, hbody, heq⟩ := Option.map_eq_some_iff.1 h
      cases heq
      rw [if_neg hc, ih hbody]
      rfl

/-! ## Embedded blocks -/

theorem length_throughTag?_le {tag text rest : List Char}
    (h : throughTag? tag cs = some (text, rest)) : tag.length ≤ cs.length := by
  induction cs generalizing text rest with
  | nil =>
    rw [throughTag?] at h
    split at h <;> rename_i ht
    · exact Nat.le_of_eq (by rw [List.isEmpty_iff.1 ht])
    · cases h
  | cons c cs ih =>
    rw [throughTag?] at h
    split at h <;> rename_i ht
    · exact (List.isPrefixOf_iff_prefix.1 ht).length_le
    · obtain ⟨⟨text', rest'⟩, hbody, -⟩ := Option.map_eq_some_iff.1 h
      exact Nat.le_succ_of_le (ih hbody)

/-- The first closing tag stays the first one. -/
theorem throughTag?_extend {tag text rest : List Char}
    (h : throughTag? tag cs = some (text, rest)) (hn : tag ≠ []) :
    throughTag? tag (cs ++ more) = some (text, rest ++ more) := by
  induction cs generalizing text rest with
  | nil =>
    rw [throughTag?, if_neg (by simpa using hn)] at h
    cases h
  | cons c cs ih =>
    rw [throughTag?] at h
    rw [List.cons_append, throughTag?]
    split at h <;> rename_i ht
    · cases h
      have hp := List.isPrefixOf_iff_prefix.1 ht
      have hlong : tag <+: c :: (cs ++ more) := hp.trans (List.prefix_append (c :: cs) more)
      rw [if_pos (List.isPrefixOf_iff_prefix.2 hlong), ← List.cons_append,
        List.drop_append_of_le_length hp.length_le]
    · obtain ⟨⟨text', rest'⟩, hbody, heq⟩ := Option.map_eq_some_iff.1 h
      cases heq
      -- The tag is found further on, so one that began here would end in the same text.
      have hlong : ¬ tag <+: c :: (cs ++ more) := by
        intro hp
        refine ht (List.isPrefixOf_iff_prefix.2 ?_)
        apply List.prefix_of_prefix_length_le hp (List.prefix_append (c :: cs) more)
        exact Nat.le_succ_of_le (length_throughTag?_le hbody)
      rw [if_neg (fun hp => hlong (List.isPrefixOf_iff_prefix.1 hp)), ih hbody]
      rfl

/-- A closing tag begins with two characters that are looked for. So it is enough that the text
behind does not hold these. -/
theorem throughTag?_eq_none {tag : List Char} (hm : ¬ ['<', '/'] <:+: more) :
    throughTag? ('<' :: '/' :: tag) more = none := by
  induction more with
  | nil => rfl
  | cons c more ih =>
    rw [throughTag?, if_neg, ih, Option.map_none]
    · intro h
      exact hm (h.trans (List.suffix_cons c more).isInfix)
    · intro h
      refine hm (List.IsPrefix.isInfix ?_)
      exact (List.prefix_append ['<', '/'] tag).trans (List.isPrefixOf_iff_prefix.1 h)

/-- A closing tag that is not there is not put together across a seal. -/
theorem throughTag?_none_append {tag : List Char} (h : Sealed cs)
    (ht : ∀ c ∈ '<' :: '/' :: tag, isSeal c = false)
    (hn : throughTag? ('<' :: '/' :: tag) cs = none)
    (hm : ¬ ['<', '/'] <:+: more) : throughTag? ('<' :: '/' :: tag) (cs ++ more) = none := by
  induction cs with
  | nil => exact absurd rfl h.ne_nil
  | cons c cs ih =>
    rw [throughTag?] at hn
    split at hn <;> rename_i hc
    · cases hn
    have hlong : ¬ '<' :: '/' :: tag <+: c :: cs ++ more := by
      intro hp
      -- Such a tag would hold the last character, and a tag has no seal in it.
      rcases List.prefix_or_prefix_of_prefix hp (List.prefix_append (c :: cs) more) with hl | hr
      · exact hc (List.isPrefixOf_iff_prefix.2 hl)
      · obtain ⟨front, z, hf, hz⟩ := h
        have hno := ht z (hr.subset (hf ▸ List.mem_append_right _ (List.mem_singleton_self _)))
        rw [hz] at hno
        cases hno
    rw [List.cons_append] at hlong ⊢
    rw [throughTag?, if_neg (fun hp => hlong (List.isPrefixOf_iff_prefix.1 hp))]
    by_cases hcs : cs = []
    · rw [hcs, List.nil_append, throughTag?_eq_none hm]
      rfl
    · rw [ih (h.tail hcs) (Option.map_eq_none_iff.1 hn)]
      rfl

/-- A closing tag has no seal in it. -/
theorem isSeal_of_mem_tag {name : List Char} (hname : ∀ c ∈ name, isAsciiLetter c = true) :
    ∀ c ∈ '<' :: '/' :: (name ++ ['>']), isSeal c = false := by
  intro c hmem
  simp only [List.mem_cons, List.mem_append, List.not_mem_nil, or_false] at hmem
  rcases hmem with rfl | rfl | hc | rfl
  · decide
  · decide
  · refine Bool.eq_false_iff.2 fun hs => ?_
    cases (hname c hc).symm.trans (not_of_isSeal (fun _ => isWord_of_isAsciiLetter) hs)
  · decide

/-- What a name and the end of an opening tag begin is looked for up to its closing tag. -/
theorem foreign?_of_tag {body : List Char} (hn : (cs.takeWhile isAsciiLetter).isEmpty = false)
    (hd : cs.dropWhile isAsciiLetter = '>' :: body) :
    foreign? cs =
      (throughTag? ('<' :: '/' :: (cs.takeWhile isAsciiLetter ++ ['>'])) body).map
        fun (text, rest) => ⟨.foreign (String.ofList (cs.takeWhile isAsciiLetter)),
          '<' :: cs.takeWhile isAsciiLetter ++ '>' :: text, rest⟩ := by
  unfold foreign?
  simp only [hn, hd]
  rfl

theorem foreign?_of_no_tag (h : (cs.takeWhile isAsciiLetter).isEmpty = true ∨
    (cs.dropWhile isAsciiLetter).head? ≠ some '>') : foreign? cs = none := by
  unfold foreign?
  simp only
  split <;> rename_i hn hd
  · rcases h with h | h
    · rw [hn] at h
      cases h
    · rw [hd] at h
      exact absurd rfl h
  · rfl

/-- An embedded block, or the sign of comparison that is read instead. Here the whole text is
searched, so the text behind may not hold a closing tag. -/
theorem foreign?_append (h : Sealed cs) (hm : ¬ ['<', '/'] <:+: more) :
    foreign? (cs ++ more) = (foreign? cs).map (·.extend more) := by
  have hds : Sealed (cs.dropWhile isAsciiLetter) := h.dropWhile fun _ => isWord_of_isAsciiLetter
  obtain ⟨ht, hd⟩ := @span_append isAsciiLetter cs hds.ne_nil more
  obtain ⟨c, body, hc⟩ := List.exists_cons_of_ne_nil hds.ne_nil
  have hletters : ∀ c ∈ cs.takeWhile isAsciiLetter, isAsciiLetter c = true :=
    List.all_eq_true.1 List.all_takeWhile
  cases hn : (cs.takeWhile isAsciiLetter).isEmpty with
  | true => rw [foreign?_of_no_tag (.inl hn), foreign?_of_no_tag (.inl (by rw [ht, hn]))]; rfl
  | false =>
    rw [hc] at hd hds
    by_cases hgt : c = '>'
    · subst hgt
      have hbody := hds.tail_of_ne (by decide)
      rw [foreign?_of_tag hn hc, @foreign?_of_tag _ (body ++ more) (by rw [ht, hn]) hd, ht]
      cases hthrough : throughTag? ('<' :: '/' :: (cs.takeWhile isAsciiLetter ++ ['>'])) body with
      -- The closing tag is in the first text, or it is nowhere.
      | some found =>
        obtain ⟨text, rest⟩ := found
        rw [throughTag?_extend hthrough (by simp)]
        rfl
      | none =>
        rw [throughTag?_none_append hbody (isSeal_of_mem_tag hletters) hthrough hm]
        rfl
    · rw [foreign?_of_no_tag (.inr (by rw [hd]; simpa using hgt)),
        foreign?_of_no_tag (.inr (by rw [hc]; simpa using hgt))]
      rfl

/-! ## Marks -/

theorem operator_append (c : Char) (h : Sealed cs) :
    operator c (cs ++ more) = (operator c cs).extend more :=
  append_of_stops (fun h => operator_stops h c) h

theorem points_append (h : Sealed cs) : points (cs ++ more) = (points cs).extend more :=
  append_of_stops points_stops h

theorem slash_of_ne (hl : cs.head? ≠ some '/') (hs : cs.head? ≠ some '*') :
    slash cs = ⟨.mark .slash, ['/'], cs⟩ := by
  unfold slash
  split
  · exact absurd rfl hl
  · exact absurd rfl hs
  · rfl

theorem slash_append (h : Sealed cs) (hr : (slash cs).rest ≠ []) :
    slash (cs ++ more) = (slash cs).extend more := by
  obtain ⟨c, cs, rfl⟩ := List.exists_cons_of_ne_nil h.ne_nil
  by_cases hc : c = '/'
  · subst hc
    obtain ⟨ht, hd⟩ := @span_append (· != '\n') cs hr more
    simp only [List.cons_append, slash, ht, hd]
    rfl
  by_cases hs : c = '*'
  · subst hs
    cases hcomment : commentBody? cs with
    | none =>
      rw [slash, hcomment] at hr
      exact absurd rfl hr
    | some found =>
      obtain ⟨text, rest⟩ := found
      simp only [List.cons_append, slash, hcomment, commentBody?_extend hcomment]
      rfl
  · rw [slash_of_ne (by simpa using hc) (by simpa using hs),
      slash_of_ne (by simpa using hc) (by simpa using hs)]
    rfl

theorem angle_of_none (hf : foreign? cs = none) (h : cs.head? ≠ some '=') :
    angle cs = ⟨.mark .less, ['<'], cs⟩ := by
  unfold angle
  rw [hf]
  simp only
  split
  · exact absurd rfl h
  · rfl

theorem angle_append (h : Sealed cs) (hm : ¬ ['<', '/'] <:+: more) :
    angle (cs ++ more) = (angle cs).extend more := by
  have hlong := foreign?_append h hm
  cases hf : foreign? cs with
  | some block =>
    rw [hf] at hlong
    unfold angle
    rw [hf, hlong]
    rfl
  | none =>
    rw [hf] at hlong
    obtain ⟨c, cs, rfl⟩ := List.exists_cons_of_ne_nil h.ne_nil
    by_cases hc : c = '='
    · subst hc
      unfold angle
      rw [hf, hlong]
      rfl
    · rw [angle_of_none hlong (by simpa using hc), angle_of_none hf (by simpa using hc)]
      rfl

theorem quoted_append {style : QuoteStyle} {position : Position} (h : Sealed cs)
    (hr : (quoted style position cs).rest ≠ []) :
    quoted style position (cs ++ more) = (quoted style position cs).extend more := by
  unfold quoted at hr ⊢
  cases hq : quotedBody? style.mark (position.after style.mark) cs with
  | none =>
    rw [hq] at hr
    exact absurd rfl hr
  | some found =>
    obtain ⟨ps, text, rest⟩ := found
    rw [quotedBody?_extend h hq]
    rfl

theorem raw_append (hr : (raw cs).rest ≠ []) : raw (cs ++ more) = (raw cs).extend more := by
  unfold raw at hr ⊢
  cases hq : rawBody? cs with
  | none =>
    rw [hq] at hr
    exact absurd rfl hr
  | some found =>
    obtain ⟨text, rest⟩ := found
    rw [rawBody?_extend hq]
    rfl

/-- **No reader that left something looks behind a seal.** The cases are those of `scan`, each by
the lemma of its reader. -/
theorem scan_append {preferHex : Bool} {position : Position} {c : Char} (h : Sealed (c :: cs))
    (hr : (scan preferHex position c cs).rest ≠ []) (hm : ¬ ['<', '/'] <:+: more) :
    scan preferHex position c (cs ++ more) = (scan preferHex position c cs).extend more := by
  have hcs : cs ≠ [] := by
    rintro rfl
    have hlen := congrArg List.length (cuts_scan preferHex position c [])
    have htext := List.length_pos_iff.2 (text_scan_ne_nil preferHex position c [])
    have hrest := List.length_pos_iff.2 hr
    rw [List.length_append, List.length_singleton] at hlen
    omega
  have hs := h.tail hcs
  revert hr
  apply scan_alike (R := fun l l' => l.rest ≠ [] → l' = l.extend more)
  case hblank => exact fun _ hr => run_append .blank hr
  case hhex => exact fun _ _ _ => hexRun_append h
  case hword => exact fun _ _ => word_append h
  case hnumber => exact fun _ _ => number_append h
  case hquoted => exact fun _ _ hr => quoted_append hs hr
  case hraw => exact fun _ hr => raw_append hr
  case hslash => exact fun _ hr => slash_append hs hr
  case hangle => exact fun _ _ => angle_append hs hm
  case hpoints => exact fun _ _ => points_append hs
  case hoperator => exact fun _ => operator_append c hs

/-- What is a hexadecimal number with more text behind it is one without. Numbers are runs of word
characters, so they stop in front of a seal. -/
theorem isHexNumber_of_append {preferHex : Bool} {position : Position} {c : Char}
    (h : Sealed (c :: cs))
    (hk : (scan preferHex position c (cs ++ more)).kind.isHexNumber = true) :
    (scan preferHex position c cs).kind.isHexNumber = true := by
  have hc := head_of_isHexNumber hk
  unfold scan at hk ⊢
  rw [← List.cons_append] at hk
  by_cases hblank : isBlank c = true
  · rw [if_pos hblank] at hk
    cases hk
  rw [if_neg hblank] at hk ⊢
  by_cases hstart : isNameStart c = true
  · rw [if_pos hstart, hexRun_append h, word_append h] at hk
    rw [if_pos hstart]
    split
    · rwa [if_pos ‹_›] at hk
    · rwa [if_neg ‹_›] at hk
  rw [if_neg hstart, if_pos (hc.resolve_left hstart), hexRun_append h, number_append h] at hk
  rw [if_neg hstart, if_pos (hc.resolve_left hstart)]
  split
  · rwa [if_pos ‹_›] at hk
  · rwa [if_neg ‹_›] at hk

theorem scan_semicolon (position : Position) (cs : List Char) :
    scan false position ';' cs = ⟨.mark .semicolon, [';'], cs⟩ := by
  cases cs with
  | nil => rfl
  | cons d cs => rfl

/-- Only a run of blanks is a blank. -/
theorem scan_blank {preferHex : Bool} {position : Position} {c : Char}
    (h : (scan preferHex position c cs).kind = .blank) :
    isBlank c = true ∧ scan preferHex position c cs = run .blank isBlank (c :: cs) :=
  (origin_scan ..).blank h

/-- Blanks that go on to the end of a text end there, unless more of them follow. -/
theorem scan_blank_append {position : Position} {c : Char}
    (h : (scan false position c cs).kind = .blank) (hr : (scan false position c cs).rest = [])
    (hm : ∀ d ∈ more.head?, isBlank d = false) :
    scan false position c (cs ++ more) = (scan false position c cs).extend more := by
  obtain ⟨hc, hscan⟩ := scan_blank h
  have hall : ∀ d ∈ c :: cs, isBlank d = true := by
    rw [hscan] at hr
    exact List.dropWhile_eq_nil_iff.1 hr
  have ht : more.takeWhile isBlank = [] ∧ more.dropWhile isBlank = more := by
    cases more with
    | nil => exact ⟨rfl, rfl⟩
    | cons d more =>
      have hd := hm d rfl
      exact ⟨List.takeWhile_cons_of_neg (by simp [hd]), List.dropWhile_cons_of_neg (by simp [hd])⟩
  have htake : (c :: cs).takeWhile isBlank = c :: cs := List.takeWhile_eq_self_iff.2 hall
  have hdrop : (c :: cs).dropWhile isBlank = [] := List.dropWhile_eq_nil_iff.2 hall
  rw [hscan, scan, if_pos hc, ← List.cons_append, run, run, List.takeWhile_append_of_pos hall,
    List.dropWhile_append_of_pos hall, ht.1, ht.2, htake, hdrop, List.append_nil]
  rfl

end Lexeme

/-! ## All tokens -/

namespace Token

/-- The text can not go on with the last token. -/
def Seam (ts : List Token) (more : List Char) : Prop :=
  ∀ t ∈ ts.getLast?,
    t.kind = .mark .semicolon ∨ t.kind = .blank ∧ ∀ c ∈ more.head?, isBlank c = false

theorem Seam.of_finished {ts : List Token} (h : Finished ts) (more : List Char) : Seam ts more :=
  fun t ht => .inl (h t ht)

theorem Seam.tail {t : Token} {ts : List Token} {more : List Char} (h : Seam (t :: ts) more) :
    Seam ts more := by
  intro u hu
  apply h u
  rw [List.getLast?_cons, Option.mem_def.1 hu]
  rfl

/-- All of a blank is blank. -/
theorem isBlank_of_mem {p : Position} {cs : List Char} {t : Token} (ht : t ∈ readAll p cs)
    (hk : t.kind = .blank) {c : Char} (hc : c ∈ t.chars) : isBlank c = true := by
  obtain ⟨q, d, rest, rfl⟩ := exists_scan_of_mem ht
  rw [Lexeme.chars_token, (Lexeme.scan_blank hk).2] at hc
  exact List.all_eq_true.1 List.all_takeWhile c hc

/-- The last character of a text is in its last token. -/
theorem sealed_of_seam {p : Position} {cs more : List Char} (h : Seam (readAll p cs) more)
    (hcs : cs ≠ []) : Sealed cs := by
  have hn : readAll p cs ≠ [] := fun he => hcs (readAll_eq_nil he)
  obtain ⟨ts, t, ht⟩ := List.eq_nil_or_concat (readAll p cs) |>.resolve_left hn
  rw [List.concat_eq_append] at ht
  have hmem : t ∈ readAll p cs := ht ▸ List.mem_append_right _ (List.mem_singleton_self t)
  obtain ⟨chars, z, hchars, hz⟩ : Sealed t.chars := by
    rcases h t (by rw [ht, List.getLast?_concat]; rfl) with hk | ⟨hk, -⟩
    · exact ⟨[], ';', text_of_mark hmem hk, rfl⟩
    · obtain ⟨q, c, rest, rfl⟩ := exists_scan_of_mem hmem
      have hne := Lexeme.text_scan_ne_nil false q c rest
      rw [← Lexeme.chars_token _ q] at hne
      obtain ⟨front, z, hf⟩ := List.eq_nil_or_concat _ |>.resolve_left hne
      rw [List.concat_eq_append] at hf
      refine ⟨front, z, hf, Bool.or_eq_true_iff.2 (.inr (isBlank_of_mem hmem hk ?_))⟩
      exact hf ▸ List.mem_append_right _ (List.mem_singleton_self z)
  have hspell := spell_readAll p cs
  rw [ht, spell_append, spell_cons, hchars, spell_nil, List.append_nil, ← List.append_assoc]
    at hspell
  exact ⟨_, z, hspell.symm, hz⟩

/-- **Behind a text that can not go on the tokens of another one follow.** The induction is on the
tokens of the first text; all but the last of them have left something, and the last one is a
semicolon or a blank. -/
theorem readAll_append {p : Position} {cs more : List Char} (h : Seam (readAll p cs) more)
    (hm : ¬ ['<', '/'] <:+: more) :
    readAll p (cs ++ more) = readAll p cs ++ readAll (p.past cs) more := by
  fun_induction readAll p cs with
  | case1 p => rfl
  | case2 p c cs l ih =>
    have hcut : l.text ++ l.rest = c :: cs := Lexeme.cuts_scan false p c cs
    have hs : Sealed (c :: cs) := by
      refine @sealed_of_seam p (c :: cs) more ?_ (by simp)
      rw [readAll_cons]
      exact h
    have hlong : Lexeme.scan false p c (cs ++ more) = l.extend more := by
      by_cases hr : l.rest = []
      · -- The last token is all there is.
        rw [hr, readAll_nil] at h
        rcases h _ rfl with hk | ⟨hk, hb⟩
        · have htext : l.text = [';'] := Lexeme.text_scan_mark hk
          rw [htext, hr] at hcut
          obtain ⟨rfl, rfl⟩ : ';' = c ∧ [] = cs := by simpa using hcut
          exact (Lexeme.scan_semicolon p more).trans
            (congrArg (·.extend more) (Lexeme.scan_semicolon p [])).symm
        · exact Lexeme.scan_blank_append hk hr hb
      · exact Lexeme.scan_append hs hr hm
    rw [← hcut, Position.past_append, hcut, List.cons_append, List.cons_append, ← ih h.tail,
      readAll_cons, hlong]
    rfl

/-- A color that is there with more text behind it is there without. -/
theorem read?_of_append {p : Position} {cs more rest : List Char} {t : Token} (h : Sealed cs)
    (hr : read? true p (cs ++ more) = some (t, rest)) (hk : t.kind.isHexNumber = true) :
    ∃ t' rest', read? true p cs = some (t', rest') ∧ t'.kind.isHexNumber = true := by
  obtain ⟨c, cs, rfl⟩ := List.exists_cons_of_ne_nil h.ne_nil
  rw [List.cons_append, read?] at hr
  obtain ⟨rfl, rfl⟩ := Prod.mk.inj (Option.some.inj hr)
  exact ⟨_, _, rfl, Lexeme.isHexNumber_of_append h hk⟩

/-- A hexadecimal number is cut off in the same way, and something is left behind it. A color is
read apart from the tokens of the source, so it needs a lemma of its own. -/
theorem read?_append {p : Position} {cs more rest : List Char} {t : Token} (h : Sealed cs)
    (hr : read? true p cs = some (t, rest)) (hk : t.kind.isHexNumber = true)
    (hm : ¬ ['<', '/'] <:+: more) : read? true p (cs ++ more) = some (t, rest ++ more) := by
  have hloose := loose_of_read? hr hk
  obtain ⟨-, -, hcut⟩ := read?_eq_some hr
  have hrest : rest ≠ [] := by
    rintro rfl
    obtain ⟨front, z, hf, hz⟩ := h
    have hmem : z ∈ t.chars := by
      rw [List.append_nil] at hcut
      rw [← hcut, hf]
      exact List.mem_append_right _ (List.mem_singleton_self _)
    rcases Bool.or_eq_true_iff.1 hz with hc | hb
    · have hno : isLoose ';' = false := rfl
      rw [← beq_iff_eq.1 hc, hloose z hmem] at hno
      cases hno
    · rw [isBlank_of_isLoose (hloose z hmem)] at hb
      cases hb
  obtain ⟨c, cs, rfl⟩ := List.exists_cons_of_ne_nil h.ne_nil
  rw [read?] at hr
  obtain ⟨rfl, rfl⟩ := Prod.mk.inj (Option.some.inj hr)
  rw [List.cons_append, read?, Lexeme.scan_append h hrest hm]
  rfl

end Token

end Heddle
