import SmallPascal.Proofs.Token.Layout
import SmallPascal.Proofs.Token.Lookahead

/-!
# One step of reading

A step of reading passes the longest gap, and then what stands there decides what it answers
(`Advances`): the end mark, a token, or one of three errors, each with the place it is reported at
and the text it leaves unread. That is said without the functions that read. They do exactly this in
every place of a text (`Cursor.next_iff_advances`), and there is a step in every place
(`exists_advances`).

A step that does not answer the end mark takes at least one character, whether it succeeds or
fails. So a reader that is asked for token after token, errors notwithstanding, comes to the end
mark after no more steps than there are characters, and then answers the same end mark for ever
(`TokenReader.upcoming_ends`). This holds wherever requests can lead a reader
(`TokenReader.next_advances`).
-/

namespace SmallPascal

/-- A gap stands in front of a text, and no longer one does. -/
structure IsLongestGap (gap text : List Char) : Prop where
  isGap : IsGap gap
  isPrefix : gap <+: text
  longest : ∀ other, IsGap other → other <+: text → other.length ≤ gap.length

/-- The end mark of a text, at the place behind it. -/
def Token.endMark (text : List Char) : Token :=
  ⟨.endOfInput, "", .behind text⟩

/-- A step of reading behind the text `before`: it passes a text, leaves another one unread, and
gives an answer. -/
inductive Advances (before : List Char) :
    (passed rest : List Char) → (answer : Except LexicalError Token) → Prop where
  | endOfInput {gap : List Char} (longest : IsLongestGap gap gap) :
    Advances before gap [] (.ok (.endMark (before ++ gap)))
  /-- Nothing is left unread behind a brace that is not closed. -/
  | unterminatedComment {gap comment : List Char}
    (longest : IsLongestGap gap (gap ++ '{' :: comment)) (unclosed : '}' ∉ comment) :
    Advances before (gap ++ '{' :: comment) []
      (.error (.unterminatedComment (.behind (before ++ gap))))
  /-- A numeral that is too large is passed as a whole. -/
  | invalidInteger {gap digits rest : List Char}
    (longest : IsLongestGap gap (gap ++ (digits ++ rest))) (numeral : IsNumeral digits)
    (maximal : ∀ c ∈ rest.head?, c.isDigit = false)
    (large : 9223372036854775807 < Text.decimalValue digits) :
    Advances before (gap ++ digits) rest
      (.error (.invalidInteger (String.ofList digits) (.behind (before ++ gap))))
  | invalidCharacter {gap rest : List Char} {char : Char}
    (longest : IsLongestGap gap (gap ++ char :: rest)) (noComment : char ≠ '{')
    (noLexeme : ∀ lexeme, lexeme <+: char :: rest → ¬IsLexeme lexeme) :
    Advances before (gap ++ [char]) rest
      (.error (.invalidCharacter char (.behind (before ++ gap))))
  | token {gap lexeme rest : List Char} {kind : Token.Kind}
    (longest : IsLongestGap gap (gap ++ (lexeme ++ rest)))
    (longestLexeme : IsLongestLexeme lexeme (lexeme ++ rest)) (denotes : Denotes lexeme kind) :
    Advances before (gap ++ lexeme) rest
      (.ok ⟨kind, String.ofList lexeme, .behind (before ++ gap)⟩)

/-! ## The longest gap -/

section

variable {gap more front rest comment : List Char} {c : Char}

/-- A comment ends at its first closing brace. -/
theorem eq_of_closed {body body' more' : List Char} (h : '}' ∉ body) (h' : '}' ∉ body')
    (heq : body ++ '}' :: more = body' ++ '}' :: more') : more = more' := by
  rcases List.append_eq_append_iff.1 heq with ⟨between, rfl, hmore⟩ | ⟨between, rfl, hmore⟩
  all_goals
    cases between with
    | nil => simpa [eq_comm] using hmore
    | cons d between =>
      obtain ⟨rfl, -⟩ := List.cons.inj hmore
      simp at h h'

/-- What is left of a gap behind a gap is a gap. -/
theorem IsGap.of_append (h : IsGap gap) (h' : IsGap (gap ++ more)) : IsGap more := by
  induction h with
  | nil => exact h'
  | @blank c gap hblank _ ih =>
    generalize htext : c :: gap ++ more = text at h'
    cases h' with
    | nil => cases htext
    | blank _ h' =>
      obtain ⟨-, rfl⟩ := List.cons.inj htext
      exact ih h'
    | comment =>
      obtain ⟨rfl, -⟩ := List.cons.inj htext
      exact absurd hblank (by decide)
  | @comment body gap hclosed _ ih =>
    generalize htext : '{' :: (body ++ '}' :: gap) ++ more = text at h'
    cases h' with
    | nil => cases htext
    | blank hblank =>
      obtain ⟨rfl, -⟩ := List.cons.inj htext
      exact absurd hblank (by decide)
    | @comment body' more' hclosed' h' =>
      obtain rfl := eq_of_closed hclosed hclosed' (by simpa using htext)
      exact ih h'

/-- A gap is the longest one if nothing behind it is a gap. -/
theorem IsGap.isLongestGap (h : IsGap gap)
    (hfront : ∀ more, IsGap more → more <+: front → more = []) :
    IsLongestGap gap (gap ++ front) := by
  refine ⟨h, List.prefix_append .., fun other hother hpre => ?_⟩
  rcases List.prefix_or_prefix_of_prefix hpre (List.prefix_append gap front) with hle | hle
  · exact hle.length_le
  · obtain ⟨more, rfl⟩ := hle
    obtain rfl := hfront more (h.of_append hother) ((List.prefix_append_right_inj gap).1 hpre)
    simp

/-- In front of a character that is neither white space nor an opening brace there is no gap. -/
theorem IsGap.eq_nil_of_head (h : IsGap more) (hpre : more <+: c :: rest)
    (hblank : Text.isBlank c = false) (hbrace : c ≠ '{') : more = [] := by
  obtain ⟨behind, heq⟩ := hpre
  cases h with
  | nil => rfl
  | blank hc _ =>
    obtain ⟨rfl, -⟩ := List.cons.inj heq
    simp [hblank] at hc
  | comment => exact absurd (List.cons.inj heq).1.symm hbrace

/-- In front of a brace that is never closed there is no gap, since a comment would have to end. -/
theorem IsGap.eq_nil_of_unclosed (h : IsGap more) (hpre : more <+: '{' :: comment)
    (hunclosed : '}' ∉ comment) : more = [] := by
  obtain ⟨behind, heq⟩ := hpre
  cases h with
  | nil => rfl
  | blank hc _ =>
    obtain ⟨rfl, -⟩ := List.cons.inj heq
    exact absurd hc (by decide)
  | comment =>
    obtain ⟨-, rfl⟩ := List.cons.inj heq
    exact absurd (by simp) hunclosed

/-- A text is a gap, and what stands behind it: nothing, a comment that is not closed, or a
character that belongs to no gap. -/
theorem exists_gap (text : List Char) :
    ∃ gap front, text = gap ++ front ∧ IsGap gap ∧
      (front = [] ∨ (∃ comment, front = '{' :: comment ∧ '}' ∉ comment) ∨
        ∃ c rest, front = c :: rest ∧ Text.isBlank c = false ∧ c ≠ '{') := by
  induction hlength : text.length using Nat.strongRecOn generalizing text with
  | ind n ih =>
    subst hlength
    cases text with
    | nil => exact ⟨[], [], rfl, .nil, .inl rfl⟩
    | cons c text =>
      by_cases hblank : Text.isBlank c
      · obtain ⟨gap, front, rfl, hgap, hfront⟩ := ih _ (by simp) text rfl
        exact ⟨c :: gap, front, rfl, .blank hblank hgap, hfront⟩
      by_cases hbrace : c = '{'
      · subst hbrace
        by_cases hclosed : '}' ∈ text
        · obtain ⟨body, more, rfl, hbody⟩ := List.eq_append_cons_of_mem hclosed
          obtain ⟨gap, front, rfl, hgap, hfront⟩ :=
            ih _ (by simp only [List.length_cons, List.length_append]; omega) more rfl
          exact ⟨'{' :: (body ++ '}' :: gap), front, by simp, .comment hbody hgap, hfront⟩
        · exact ⟨[], _, rfl, .nil, .inr (.inl ⟨text, rfl, hclosed⟩)⟩
      · exact ⟨[], _, rfl, .nil,
          .inr (.inr ⟨c, text, rfl, Bool.eq_false_iff.2 hblank, hbrace⟩)⟩

end

/-! ## What stands behind the gap -/

section

variable {lexeme digits rest : List Char} {c : Char}

/-- A lexeme that begins with a digit is a numeral. -/
theorem IsLexeme.isNumeral {more : List Char} (h : IsLexeme (c :: more)) (hc : c.isDigit) :
    IsNumeral (c :: more) := by
  generalize htext : c :: more = text at h
  cases h with
  | numeral h => exact h
  | word h =>
    obtain ⟨hletter, -⟩ := h
    obtain ⟨rfl, -⟩ := List.cons.inj htext
    simp [isDigit_eq_false_of_isAlpha hletter] at hc
  | sign s =>
    have hdigit := (Symbol.not_isAlphanum_of_mem (s := s) (htext ▸ List.mem_cons_self)).1
    simp [hdigit] at hc

/-- A run of digits is the longest lexeme if no digit is behind it. -/
theorem IsNumeral.isLongestLexeme_iff (h : IsNumeral digits) :
    IsLongestLexeme digits (digits ++ rest) ↔ ∀ c ∈ rest.head?, c.isDigit = false := by
  constructor
  · intro hlongest c hc
    refine Bool.eq_false_iff.2 fun hdigit => ?_
    obtain ⟨more, rfl⟩ := List.head?_eq_some_iff.1 hc
    have hlonger : IsNumeral (digits ++ [c]) := ⟨by simp, by
      simpa [or_imp, forall_and] using ⟨h.digits, hdigit⟩⟩
    have hle := hlongest.longest _ (.numeral hlonger) ⟨more, by simp⟩
    rw [List.length_append, List.length_singleton] at hle
    omega
  · intro hrest
    refine (IsLexeme.numeral h).isLongestLexeme fun c hc hlonger => ?_
    obtain ⟨d, more, rfl⟩ := List.exists_cons_of_ne_nil h.ne_nil
    have hnumeral := hlonger.isNumeral (h.digits d (.head _))
    simpa [hrest c hc] using hnumeral.digits c (by simp)

/-- Only numerals that are too large are lexemes and denote nothing. -/
theorem Token.Kind.ofSpelling?_eq_none_iff (h : IsLexeme lexeme) :
    Token.Kind.ofSpelling? lexeme = none ↔
      IsNumeral lexeme ∧ 9223372036854775807 < Text.decimalValue lexeme := by
  have hnumeral : IsNumeral lexeme → (Token.Kind.ofSpelling? lexeme = none ↔
      9223372036854775807 < Text.decimalValue lexeme) := by
    intro hdigits
    obtain ⟨c, more, rfl⟩ := List.exists_cons_of_ne_nil hdigits.ne_nil
    rw [Token.Kind.ofSpelling?, if_pos (hdigits.digits c (.head _)), Option.map_eq_none_iff,
      Text.integerOfDigits?]
    split <;> simp <;> omega
  constructor
  · intro hnone
    cases h with
    | numeral h => exact ⟨h, (hnumeral h).1 hnone⟩
    | word h => cases (Token.Kind.ofSpelling?_word h).symm.trans hnone
    | sign s => cases (Token.Kind.ofSpelling?_sign s).symm.trans hnone
  · rintro ⟨hdigits, hlarge⟩
    exact (hnumeral hdigits).2 hlarge

/-- Nothing is read in front of a text exactly if no lexeme stands there. -/
theorem spellingAtFront_eq_nil_iff {text : List Char} :
    spellingAtFront text = [] ↔ ∀ lexeme, lexeme <+: text → ¬IsLexeme lexeme := by
  constructor
  · intro hnil lexeme hpre hlexeme
    have hle := length_le_spellingAtFront hlexeme hpre
    rw [hnil] at hle
    exact hlexeme.ne_nil (List.eq_nil_of_length_eq_zero (Nat.le_zero.1 hle))
  · intro hno
    exact Decidable.byContradiction fun hne =>
      hno _ (spellingAtFront_isPrefix text) (isLexeme_spellingAtFront hne)

end

/-! ## Reading takes steps -/

/-- There is a step in every place. -/
theorem exists_advances (before text : List Char) :
    ∃ passed rest answer, text = passed ++ rest ∧ Advances before passed rest answer := by
  obtain ⟨gap, front, rfl, hgap, hfront⟩ := exists_gap text
  obtain rfl | ⟨comment, rfl, hunclosed⟩ | ⟨c, more, rfl, hblank, hbrace⟩ := hfront
  · have hlongest : IsLongestGap gap (gap ++ []) :=
      hgap.isLongestGap fun _ _ => List.prefix_nil.1
    rw [List.append_nil] at hlongest
    exact ⟨gap, [], _, rfl, .endOfInput hlongest⟩
  · have hlongest := hgap.isLongestGap fun _ h hpre => h.eq_nil_of_unclosed hpre hunclosed
    exact ⟨_, [], _, (List.append_nil _).symm, .unterminatedComment hlongest hunclosed⟩
  · have hlongest : IsLongestGap gap (gap ++ c :: more) :=
      hgap.isLongestGap fun _ h hpre => h.eq_nil_of_head hpre hblank hbrace
    by_cases hnil : spellingAtFront (c :: more) = []
    · exact ⟨gap ++ [c], more, _, List.append_cons .., .invalidCharacter hlongest hbrace
        (spellingAtFront_eq_nil_iff.1 hnil)⟩
    · have hlexeme := isLongestLexeme_iff.2 ⟨rfl, hnil⟩
      generalize spellingAtFront (c :: more) = lexeme at hlexeme
      obtain ⟨rest, htext⟩ := hlexeme.isPrefix
      rw [← htext] at hlexeme hlongest ⊢
      refine ⟨gap ++ lexeme, rest, ?_⟩
      cases hkind : Token.Kind.ofSpelling? lexeme with
      | some kind =>
        exact ⟨_, (List.append_assoc ..).symm, .token hlongest hlexeme
          ((Token.Kind.ofSpelling?_eq_some_iff hlexeme.isLexeme).1 hkind)⟩
      | none =>
        obtain ⟨hnumeral, hlarge⟩ :=
          (Token.Kind.ofSpelling?_eq_none_iff hlexeme.isLexeme).1 hkind
        exact ⟨_, (List.append_assoc ..).symm, .invalidInteger hlongest hnumeral
          (hnumeral.isLongestLexeme_iff.1 hlexeme) hlarge⟩

/-- A step takes something, unless only a gap is left. -/
theorem Advances.gap_or_ne_nil {before passed rest : List Char}
    {answer : Except LexicalError Token} (h : Advances before passed rest answer) :
    (rest = [] ∧ IsGap passed ∧ answer = .ok (.endMark (before ++ passed))) ∨
      (passed ≠ [] ∧ ∀ t, answer = .ok t → t.kind ≠ .endOfInput) := by
  cases h with
  | endOfInput hlongest => exact .inl ⟨rfl, hlongest.isGap, rfl⟩
  | unterminatedComment | invalidCharacter => exact .inr ⟨by simp, nofun⟩
  | invalidInteger _ hnumeral => exact .inr ⟨by simp [hnumeral.ne_nil], nofun⟩
  | token _ hlexeme hdenotes =>
    refine .inr ⟨by simp [hlexeme.isLexeme.ne_nil], ?_⟩
    rintro _ ⟨⟩
    exact hdenotes.ne_endOfInput

namespace Cursor

section

variable {p : Position} {rest : List Char}

/-- Inside a comment that is not closed the whole text is passed, and the place of the opening brace
is kept. -/
theorem skipGapFrom_unclosed {opened : Position} {comment : List Char} (h : '}' ∉ comment) :
    skipGapFrom (some opened) p comment = (some opened, ⟨[], p.after comment⟩) := by
  induction comment generalizing p with
  | nil => rfl
  | cons c comment ih =>
    obtain ⟨hc, hcomment⟩ := not_or.1 (mt List.mem_cons.2 h)
    rw [skipGapFrom, if_pos Option.isSome_some, if_neg (Ne.symm hc)]
    exact ih hcomment

/-- At a comment that is not closed reading fails, reports its opening brace and leaves nothing. -/
theorem next_unclosed {comment : List Char} (h : '}' ∉ comment) :
    next ⟨'{' :: comment, p⟩ =
      (.error (.unterminatedComment p), ⟨[], p.after ('{' :: comment)⟩) := by
  have hskip : skipGapFrom none p ('{' :: comment) =
      skipGapFrom (some p) (p.next '{') comment := by
    rw [skipGapFrom, if_neg (by simp), if_neg (by decide), if_pos rfl]
  simp only [next, skipGap, hskip, skipGapFrom_unclosed h]
  rfl

/-- At a numeral that is too large reading fails, reports the numeral and goes on behind it. -/
theorem next_large {digits : List Char} (h : IsNumeral digits)
    (hrest : ∀ c ∈ rest.head?, c.isDigit = false)
    (hlarge : 9223372036854775807 < Text.decimalValue digits) :
    next ⟨digits ++ rest, p⟩ =
      (.error (.invalidInteger (String.ofList digits) p), ⟨rest, p.after digits⟩) := by
  have hspelling := (isLongestLexeme_iff.1 (h.isLongestLexeme_iff.2 hrest)).1
  have hkind := (Token.Kind.ofSpelling?_eq_none_iff (.numeral h)).2 ⟨h, hlarge⟩
  obtain ⟨c, more, rfl⟩ := List.exists_cons_of_ne_nil h.ne_nil
  simp only [next, skipGap, skipGapFrom_lexeme (.numeral h)]
  simp only [readToken, List.cons_append] at hspelling ⊢
  rw [← hspelling]
  simp only [hkind, drop]
  rw [← List.cons_append, List.drop_left, List.take_left]

/-- At a character with which no token begins reading fails, reports it and goes on behind it. -/
theorem next_stray {c : Char} (hblank : Text.isBlank c = false) (hbrace : c ≠ '{')
    (h : ∀ lexeme, lexeme <+: c :: rest → ¬IsLexeme lexeme) :
    next ⟨c :: rest, p⟩ = (.error (.invalidCharacter c p), ⟨rest, p.next c⟩) := by
  have hskip : skipGapFrom none p (c :: rest) = (none, ⟨c :: rest, p⟩) := by
    rw [skipGapFrom, if_neg (by simp), if_neg (by simp [hblank]), if_neg hbrace]
  simp only [next, skipGap, hskip, readToken, spellingAtFront_eq_nil_iff.2 h]
  rfl

end

/-- Reading does what a step says. -/
theorem next_of_advances {before passed rest : List Char} {answer : Except LexicalError Token}
    (h : Advances before passed rest answer) :
    next ⟨passed ++ rest, .behind before⟩ = (answer, ⟨rest, .behind (before ++ passed)⟩) := by
  cases h with
  | endOfInput hlongest =>
    rw [next_gap hlongest.isGap, Position.after_behind]
    exact next_end
  | unterminatedComment hlongest hunclosed =>
    rw [List.append_nil, next_gap hlongest.isGap, next_unclosed hunclosed, Position.after_behind,
      Position.after_behind, List.append_assoc]
  | invalidInteger hlongest hnumeral hrest hlarge =>
    rw [List.append_assoc, next_gap hlongest.isGap, next_large hnumeral hrest hlarge,
      Position.after_behind, Position.after_behind, List.append_assoc]
  | @invalidCharacter gap rest c hlongest hbrace hnone =>
    have hblank : Text.isBlank c = false := by
      refine Bool.eq_false_iff.2 fun hblank => ?_
      have hlonger := hlongest.longest (gap ++ [c]) (hlongest.isGap.append (.blank hblank .nil))
        ⟨rest, by simp⟩
      rw [List.length_append, List.length_singleton] at hlonger
      omega
    rw [List.append_assoc, List.singleton_append, next_gap hlongest.isGap,
      next_stray hblank hbrace hnone, Position.after_behind, ← Position.behind_append_singleton,
      List.append_assoc]
  | token hlongest hlexeme hdenotes =>
    rw [List.append_assoc, next_gap hlongest.isGap, next_lexeme hlexeme hdenotes,
      Position.after_behind, Position.after_behind, List.append_assoc]

/-- Reading takes a step, and no other one. -/
theorem next_iff_advances {before text : List Char} {answer : Except LexicalError Token}
    {c : Cursor} :
    next ⟨text, .behind before⟩ = (answer, c) ↔ ∃ passed rest, text = passed ++ rest ∧
      c = ⟨rest, .behind (before ++ passed)⟩ ∧ Advances before passed rest answer := by
  constructor
  · intro h
    obtain ⟨passed, rest, answer', rfl, hadvances⟩ := exists_advances before text
    obtain ⟨rfl, rfl⟩ := Prod.mk.inj ((next_of_advances hadvances).symm.trans h)
    exact ⟨passed, rest, rfl, rfl, hadvances⟩
  · rintro ⟨passed, rest, rfl, rfl, hadvances⟩
    exact next_of_advances hadvances

/-- A cursor is in a place of a text. -/
def IsWithin (source : List Char) (c : Cursor) : Prop :=
  ∃ before text, source = before ++ text ∧ c = ⟨text, .behind before⟩

/-- Reading starts in a place of the text, at its beginning. -/
theorem isWithin_ofText (source : String) : (ofText source).IsWithin source.toList :=
  ⟨[], source.toList, rfl, rfl⟩

/-- Reading does not lead out of a text. -/
theorem IsWithin.next {source : List Char} {c : Cursor} (h : c.IsWithin source) :
    c.next.2.IsWithin source := by
  obtain ⟨before, text, rfl, rfl⟩ := h
  obtain ⟨passed, rest, answer, rfl, hadvances⟩ := exists_advances before text
  rw [next_of_advances hadvances]
  exact ⟨before ++ passed, rest, (List.append_assoc ..).symm, rfl⟩

/-- Nor does reading everything that is left. -/
theorem IsWithin.stop {source : List Char} {c : Cursor} (h : c.IsWithin source) :
    c.stream.stop.IsWithin source := by
  fun_induction stream c with
  | case1 c e stop hnext =>
    have hstop := h.next
    rwa [hnext] at hstop
  | case2 c t behind hnext =>
    have hbehind := h.next
    rwa [hnext] at hbehind
  | case3 c t behind hnext _ _ ih =>
    have hbehind := h.next
    rw [hnext] at hbehind
    exact ih hbehind

end Cursor

namespace TokenReader

/-- The reader that requests leave behind. -/
def afterAll (r : TokenReader) (requests : List Request) : TokenReader :=
  requests.foldl (fun r q => (r.perform q).2) r

/-- The reader reads a token just as its cursor does, and keeps what it knows of the iteration. -/
theorem next_eq_iff {r : TokenReader} {c : Cursor} {answer : Except LexicalError Token} :
    r.next = (answer, { r with cursor := c }) ↔ r.cursor.next = (answer, c) := by
  simp [next, Prod.ext_iff]

section

variable (r : TokenReader)

/-- A request for a token leaves the reader that reading the token leaves. -/
theorem perform_next_reader : (r.perform .next).2 = r.next.2 := by
  simp only [perform]
  split <;> next h => rw [h]

/-- A request to iterate leaves the reader that the step of the iteration leaves. -/
theorem perform_iterate_reader : (r.perform .iterate).2 = r.iterate.2 := by
  simp only [perform]
  split <;> next h => rw [h]

/-- A request to drain leaves the reader that draining leaves. -/
theorem perform_drain_reader : (r.perform .drain).2 = r.drain.2 := by
  simp only [perform]
  split <;> next h => rw [h]

end

/-- No request leads out of a text. -/
theorem isWithin_perform {source : List Char} {r : TokenReader} (h : r.cursor.IsWithin source)
    (q : Request) : (r.perform q).2.cursor.IsWithin source := by
  cases q with
  | next =>
    rw [perform_next_reader]
    exact h.next
  | peek n => rwa [perform_peek_reader]
  | iterate =>
    rw [perform_iterate_reader, iterate]
    split
    · exact h
    · exact h.next
  | drain =>
    rw [perform_drain_reader, drain]
    split
    · exact h
    · exact h.stop

/-- No requests, however many, lead out of a text. -/
theorem isWithin_afterAll {source : List Char} {r : TokenReader} (h : r.cursor.IsWithin source)
    (requests : List Request) : (r.afterAll requests).cursor.IsWithin source := by
  induction requests generalizing r with
  | nil => exact h
  | cons q rest ih => exact ih (isWithin_perform h q)

/-! ## Reading to the end -/

/-- In the last gap of a text, every request for a token is answered with the end mark. -/
theorem upcoming_gap {before gap : List Char} {r : TokenReader} (hgap : IsGap gap)
    (h : r.cursor = ⟨gap, .behind before⟩) (m : Nat) :
    r.upcoming m = List.replicate m (.token (.endMark (before ++ gap))) := by
  induction m generalizing r before gap with
  | zero => rfl
  | succ m ih =>
    have hnext : r.next = (.ok (.endMark (before ++ gap)),
        { r with cursor := ⟨[], .behind (before ++ gap)⟩ }) := by
      have hcursor : Cursor.next ⟨gap ++ [], .behind before⟩ = _ := Cursor.next_gap hgap
      rw [List.append_nil, Position.after_behind] at hcursor
      exact next_eq_iff.2 ((congrArg _ h).trans hcursor)
    have hmore := ih (r := { r with cursor := ⟨[], .behind (before ++ gap)⟩ }) .nil rfl
    rw [List.append_nil] at hmore
    rw [upcoming_of_next_token hnext, hmore, List.replicate_succ]

/-- Asked for token after token, a reader answers with tokens and errors, as many as there are
characters at most, and from then on with the end mark of the text. -/
theorem upcoming_ends {before text : List Char} {r : TokenReader}
    (h : r.cursor = ⟨text, .behind before⟩) :
    ∃ front : List Answer, front.length ≤ text.length ∧
      (∀ t, .token t ∈ front → t.kind ≠ .endOfInput) ∧
      ∀ m, r.upcoming (front.length + m) =
        front ++ List.replicate m (.token (.endMark (before ++ text))) := by
  -- An answer takes any number of characters, so the induction is on how many are left.
  induction hlength : text.length using Nat.strongRecOn generalizing r before text with
  | ind n ih =>
    subst hlength
    obtain ⟨passed, rest, answer, rfl, hadvances⟩ := exists_advances before text
    have hcursor := Cursor.next_of_advances hadvances
    rw [← h] at hcursor
    have hnext := next_eq_iff.2 hcursor
    rcases hadvances.gap_or_ne_nil with ⟨rfl, hgap, -⟩ | ⟨hne, hkind⟩
    · rw [List.append_nil] at h ⊢
      exact ⟨[], Nat.zero_le _, by simp, fun m => by simpa using upcoming_gap hgap h m⟩
    · have hpos := List.length_pos_iff.2 hne
      obtain ⟨front, hlength, hfront, hupcoming⟩ := ih rest.length
        (by rw [List.length_append]; omega)
        (r := { r with cursor := ⟨rest, .behind (before ++ passed)⟩ }) rfl rfl
      rw [List.append_assoc] at hupcoming
      have hle : front.length + 1 ≤ (passed ++ rest).length := by
        rw [List.length_append]
        omega
      cases answer with
      | ok t =>
        refine ⟨.token t :: front, hle, fun u hu => ?_, fun m => ?_⟩
        · rcases List.mem_cons.1 hu with hu | hu
          · cases hu
            exact hkind t rfl
          · exact hfront u hu
        · rw [List.length_cons, Nat.add_right_comm, upcoming_of_next_token hnext, hupcoming,
            List.cons_append]
      | error e =>
        refine ⟨.error e :: front, hle, fun u hu => hfront u (by simpa using hu), fun m => ?_⟩
        rw [List.length_cons, Nat.add_right_comm, upcoming_of_next_error hnext, hupcoming,
          List.cons_append]

/-- Wherever requests have led a reader in a text, the next token is what a step of reading says;
zeros in front of a numeral do not matter to it. The step takes something unless it answers the end
mark, so a reader that is asked again and again, errors notwithstanding, gives at most as many other
answers as there are characters left, and then the same end mark for ever. -/
theorem next_advances :
    (∀ (zeros : Nat) (digits : List Char),
      Text.decimalValue (List.replicate zeros '0' ++ digits) = Text.decimalValue digits) ∧
    ∀ (source : String) (requests : List Request),
      let r := (ofCursor (.ofText source)).afterAll requests
      ∃ before text, source.toList = before ++ text ∧ r.cursor = ⟨text, .behind before⟩ ∧
        (∀ answer c, r.next = (answer, { r with cursor := c }) ↔
          ∃ passed rest, text = passed ++ rest ∧ c = ⟨rest, .behind (before ++ passed)⟩ ∧
            Advances before passed rest answer) ∧
        (r.next.1 = .ok (.endMark source.toList) ∨ r.next.2.cursor.rest.length < text.length) ∧
        ∃ front : List Answer, front.length ≤ text.length ∧
          (∀ t, .token t ∈ front → t.kind ≠ .endOfInput) ∧
          ∀ m, r.upcoming (front.length + m) =
            front ++ List.replicate m (.token (.endMark source.toList)) := by
  refine ⟨decimalValue_zeros, fun source requests => ?_⟩
  intro r
  obtain ⟨before, text, hsource, hcursor⟩ :=
    isWithin_afterAll (r := ofCursor (.ofText source)) (Cursor.isWithin_ofText source) requests
  refine ⟨before, text, hsource, hcursor, fun answer c => ?_, ?_, hsource ▸ upcoming_ends hcursor⟩
  · rw [next_eq_iff, hcursor]
    exact Cursor.next_iff_advances
  · obtain ⟨passed, rest, answer, rfl, hadvances⟩ := exists_advances before text
    have hnext := Cursor.next_of_advances hadvances
    rw [← hcursor] at hnext
    rw [next_eq_iff.2 hnext, hsource]
    rcases hadvances.gap_or_ne_nil with ⟨rfl, -, rfl⟩ | ⟨hne, -⟩
    · rw [List.append_nil]
      exact .inl rfl
    · have hpos := List.length_pos_iff.2 hne
      refine .inr ?_
      rw [List.length_append]
      exact Nat.lt_add_of_pos_left hpos

example : (ofCursor (.ofText "= 09223372036854775808x\x7b")).upcoming 5 =
    [.error (.invalidCharacter '=' ⟨1, 1⟩),
      .error (.invalidInteger "09223372036854775808" ⟨1, 3⟩),
      .token ⟨.identifier "x", "x", ⟨1, 23⟩⟩, .error (.unterminatedComment ⟨1, 24⟩),
      .token ⟨.endOfInput, "", ⟨1, 25⟩⟩] := by
  cbv

end TokenReader

end SmallPascal
