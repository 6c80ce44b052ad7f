import SmallPascal.Proofs.Token.Spelling

/-!
# What stands between tokens

A gap is white space and closed comments, in any order (`IsGap`). Reading passes a gap without a
trace but in the position (`next_gap`), and then reads the longest lexeme, if it denotes a token
(`next_lexeme`). Conversely every token that is read is the longest lexeme behind a gap, or the end
mark behind a gap (`next_eq_ok`).
-/

namespace SmallPascal

/-- White space and comments. A comment goes on up to the first closing brace. -/
inductive IsGap : List Char → Prop where
  | nil : IsGap []
  | blank {c : Char} {more : List Char} (isBlank : Text.isBlank c) (h : IsGap more) :
    IsGap (c :: more)
  | comment {body more : List Char} (closed : '}' ∉ body) (h : IsGap more) :
    IsGap ('{' :: (body ++ '}' :: more))

section

variable {gap gap' lexeme rest : List Char}

/-- Two gaps in a row are one. -/
theorem IsGap.append (h : IsGap gap) (h' : IsGap gap') : IsGap (gap ++ gap') := by
  induction h with
  | nil => exact h'
  | blank hblank _ ih => exact .blank hblank ih
  | @comment body more hclosed _ ih =>
    rw [List.cons_append, List.append_assoc, List.cons_append]
    exact .comment hclosed ih

/-- A gap that is not empty begins with white space or an opening brace. -/
theorem IsGap.head_gap (h : IsGap gap) (hne : gap ≠ []) :
    ∀ c ∈ (gap ++ rest).head?, Text.isBlank c ∨ c = '{' := by
  rintro c hc
  cases h with
  | nil => exact absurd rfl hne
  | blank hblank _ =>
    cases hc
    exact .inl hblank
  | comment _ _ =>
    cases hc
    exact .inr rfl

/-- No gap stands in front of a lexeme. -/
theorem IsGap.eq_nil_of_lexeme (h : IsGap gap) (hlexeme : IsLexeme lexeme) {text : List Char}
    (heq : gap ++ rest = lexeme ++ text) : gap = [] := by
  obtain ⟨c, more, rfl⟩ := List.exists_cons_of_ne_nil hlexeme.ne_nil
  obtain ⟨hblank, hbrace⟩ := hlexeme.not_gap (c := c) List.mem_cons_self
  cases h with
  | nil => rfl
  | blank hc _ =>
    obtain ⟨rfl, -⟩ := List.cons.inj heq
    simp [hblank] at hc
  | comment _ _ => exact absurd (List.cons.inj heq).1.symm hbrace

namespace Cursor

variable {p : Position} {k : Token.Kind}

/-! ## Passing a gap -/

/-- Reading goes on behind the brace that closes a comment. -/
theorem skipGapFrom_comment {opened : Position} {body : List Char} (closed : '}' ∉ body) :
    skipGapFrom (some opened) p (body ++ '}' :: rest) =
      skipGapFrom none ((p.after body).next '}') rest := by
  induction body generalizing p with
  | nil =>
    rw [List.nil_append, skipGapFrom, if_pos Option.isSome_some, if_pos rfl]
    rfl
  | cons c body ih =>
    obtain ⟨hc, hbody⟩ := not_or.1 (mt List.mem_cons.2 closed)
    rw [List.cons_append, skipGapFrom, if_pos Option.isSome_some, if_neg (Ne.symm hc)]
    exact ih hbody

/-- A gap is passed as a whole, and passing goes on behind it. -/
theorem skipGapFrom_gap (h : IsGap gap) :
    skipGapFrom none p (gap ++ rest) = skipGapFrom none (p.after gap) rest := by
  induction h generalizing p with
  | nil => rfl
  | blank hblank _ ih =>
    rw [List.cons_append, skipGapFrom, if_neg (by simp), if_pos hblank]
    exact ih
  | @comment body more closed _ ih =>
    rw [List.cons_append, skipGapFrom, if_neg (by simp), if_neg (by decide), if_pos rfl,
      List.append_assoc, List.cons_append, skipGapFrom_comment closed, ih]
    simp only [Position.after_cons, Position.after_append]

/-- Where a lexeme stands there is nothing to pass. -/
theorem skipGapFrom_lexeme (h : IsLexeme lexeme) :
    skipGapFrom none p (lexeme ++ rest) = (none, ⟨lexeme ++ rest, p⟩) := by
  obtain ⟨c, more, rfl⟩ := List.exists_cons_of_ne_nil h.ne_nil
  obtain ⟨hblank, hbrace⟩ := h.not_gap (c := c) List.mem_cons_self
  rw [List.cons_append, skipGapFrom, if_neg (by simp), if_neg (by simp [hblank]), if_neg hbrace]

/-- What is passed is a gap; within a comment, it is the rest of the comment and then a gap. -/
theorem exists_gap_of_skipGapFrom {opened : Option Position} {text : List Char} {front : Cursor}
    (h : skipGapFrom opened p text = (none, front)) :
    ∃ passed, text = passed ++ front.rest ∧ front.position = p.after passed ∧
      if opened.isSome then ∃ body gap, passed = body ++ '}' :: gap ∧ '}' ∉ body ∧ IsGap gap
      else IsGap passed := by
  fun_induction skipGapFrom opened p text with
  | case1 opened p =>
    cases h
    exact ⟨[], rfl, rfl, IsGap.nil⟩
  | case2 opened p c text hopened ih =>
    obtain ⟨passed, rfl, hpos, hpassed⟩ := ih h
    refine ⟨c :: passed, rfl, hpos, ?_⟩
    rw [if_pos hopened]
    by_cases hc : c = '}'
    · rw [if_pos hc, if_neg (by simp)] at hpassed
      exact ⟨[], passed, by rw [hc]; rfl, by simp, hpassed⟩
    · rw [if_neg hc, if_pos hopened] at hpassed
      obtain ⟨body, gap, rfl, hbody, hgap⟩ := hpassed
      exact ⟨c :: body, gap, rfl, by simp [Ne.symm hc, hbody], hgap⟩
  | case3 opened p c text hopened hblank ih =>
    obtain ⟨passed, rfl, hpos, hpassed⟩ := ih h
    exact ⟨c :: passed, rfl, hpos, by rw [if_neg hopened]; exact .blank hblank hpassed⟩
  -- The brace opens a comment, so what is passed behind it ends the comment first.
  | case4 opened p text hopened hblank ih =>
    obtain ⟨passed, rfl, hpos, hpassed⟩ := ih h
    rw [if_pos Option.isSome_some] at hpassed
    obtain ⟨body, gap, rfl, hbody, hgap⟩ := hpassed
    refine ⟨'{' :: (body ++ '}' :: gap), rfl, hpos, ?_⟩
    rw [if_neg hopened]
    exact .comment hbody hgap
  | case5 opened p c text hopened =>
    cases h
    exact ⟨[], rfl, rfl, by rw [if_neg hopened]; exact .nil⟩

/-! ## Reading a token -/

/-- A gap in front changes nothing but the position. -/
theorem next_gap (h : IsGap gap) : next ⟨gap ++ rest, p⟩ = next ⟨rest, p.after gap⟩ := by
  simp only [next, skipGap, skipGapFrom_gap h]

/-- Where nothing is left the end mark is read, again and again. -/
theorem next_end : next ⟨[], p⟩ = (.ok ⟨.endOfInput, "", p⟩, ⟨[], p⟩) := rfl

/-- A lexeme that goes on no further is read as the token that it denotes, and reading goes on
behind it. -/
theorem next_lexeme (h : IsLongestLexeme lexeme (lexeme ++ rest)) (hk : Denotes lexeme k) :
    next ⟨lexeme ++ rest, p⟩ =
      (.ok ⟨k, String.ofList lexeme, p⟩, ⟨rest, p.after lexeme⟩) := by
  have hspelling := (isLongestLexeme_iff.1 h).1
  obtain ⟨c, more, rfl⟩ := List.exists_cons_of_ne_nil h.isLexeme.ne_nil
  simp only [next, skipGap, skipGapFrom_lexeme h.isLexeme]
  simp only [readToken, List.cons_append] at hspelling ⊢
  rw [← hspelling]
  simp only [(Token.Kind.ofSpelling?_eq_some_iff h.isLexeme).2 hk, drop]
  rw [← List.cons_append, List.drop_left, List.take_left]

/-- A token that is read is the end mark behind a gap, or the longest lexeme behind a gap. -/
theorem next_eq_ok {text : List Char} {t : Token} {c : Cursor}
    (h : next ⟨text, p⟩ = (.ok t, c)) :
    (IsGap text ∧ t = ⟨.endOfInput, "", p.after text⟩ ∧ c = ⟨[], p.after text⟩) ∨
      ∃ gap lexeme rest, text = gap ++ (lexeme ++ rest) ∧ IsGap gap ∧
        IsLongestLexeme lexeme (lexeme ++ rest) ∧ Denotes lexeme t.kind ∧
        t = ⟨t.kind, String.ofList lexeme, p.after gap⟩ ∧ c = ⟨rest, p.after (gap ++ lexeme)⟩ := by
  unfold next at h
  split at h
  · cases h
  · next front hfront =>
    obtain ⟨gap, htext, hpos, hgap⟩ := exists_gap_of_skipGapFrom hfront
    obtain ⟨text', q⟩ := front
    obtain rfl : q = p.after gap := hpos
    obtain rfl : text = gap ++ text' := htext
    replace hgap : IsGap gap := hgap
    unfold readToken at h
    split at h
    · next hnil =>
      obtain rfl : text' = [] := hnil
      cases h
      rw [List.append_nil]
      exact .inl ⟨hgap, rfl, rfl⟩
    · split at h
      · cases h
      · next hne =>
        split at h
        · next k hk =>
          cases h
          have hlongest := isLongestLexeme_iff.2 ⟨rfl, hne⟩
          generalize spellingAtFront text' = lexeme at hlongest hk
          obtain ⟨rest, rfl⟩ := hlongest.isPrefix
          refine .inr ⟨gap, lexeme, rest, rfl, hgap, hlongest,
            (Token.Kind.ofSpelling?_eq_some_iff hlongest.isLexeme).1 hk, rfl, ?_⟩
          rw [drop, Position.after_append, List.drop_left, List.take_left]
        · cases h

end Cursor

end

end SmallPascal
