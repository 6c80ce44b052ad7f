import SmallPascal.Proofs.Token.Gap

/-!
# Cutting a text into tokens

`Tiles` says how the tokens of a text lie in it: each is the longest lexeme behind a gap, has the
kind that its lexeme denotes and the position that its lexeme has in the text, and the end mark
stands behind the last gap. Nothing is left out and nothing overlaps. A text can be read without
error exactly if it is tiled, by the tokens that are read (`complete_eq_ok_iff_tiles`), so a tiling
is unique.
-/

namespace SmallPascal

/-- The position behind a text from its beginning: the lines it opens, and the characters behind
its last newline. -/
def Position.behind (text : List Char) : Position :=
  ⟨text.count '\n' + 1, (text.reverse.takeWhile (· ≠ '\n')).length + 1⟩

/-- The tokens that tile a text behind the text `before`, with the end mark. -/
inductive Tiles : List Char → List Char → List Token → Prop where
  | mark {before gap : List Char} (isGap : IsGap gap) :
    Tiles before gap [⟨.endOfInput, "", .behind (before ++ gap)⟩]
  | token {before gap lexeme rest : List Char} {kind : Token.Kind} {more : List Token}
    (isGap : IsGap gap) (nonempty : lexeme ≠ []) (oneLine : '\n' ∉ lexeme)
    (longest : IsLongestLexeme lexeme (lexeme ++ rest)) (denotes : Denotes lexeme kind)
    (tiles : Tiles (before ++ (gap ++ lexeme)) rest more) :
    Tiles before (gap ++ (lexeme ++ rest))
      (⟨kind, String.ofList lexeme, .behind (before ++ gap)⟩ :: more)

/-! ## Positions -/

namespace Position

/-- The position behind a text with one character more is the next one behind that character. -/
theorem behind_append_singleton (text : List Char) (c : Char) :
    behind (text ++ [c]) = (behind text).next c := by
  unfold behind next
  by_cases hc : c = '\n'
  · subst hc
    simp
  · simp [hc]

/-- Moving over a text leads to the position behind it. -/
theorem after_behind (before text : List Char) :
    (behind before).after text = behind (before ++ text) := by
  induction text generalizing before with
  | nil => rw [after_nil, List.append_nil]
  | cons c text ih => rw [after_cons, ← behind_append_singleton, ih, ← List.append_cons]

/-- Behind a text on one line the column counts its characters. -/
theorem behind_of_newline_not_mem {text : List Char} (h : '\n' ∉ text) :
    behind text = ⟨1, text.length + 1⟩ := by
  have hall : ∀ c ∈ text.reverse, decide (c ≠ '\n') = true := by
    intro c hc
    exact decide_eq_true fun heq => h (heq ▸ List.mem_reverse.1 hc)
  have hcolumn : text.reverse.takeWhile (· ≠ '\n') = text.reverse := by
    rw [← List.append_nil text.reverse, List.takeWhile_append_of_pos hall, List.takeWhile_nil]
  rw [behind, List.count_eq_zero.2 h, hcolumn, List.length_reverse]

/-- A line in front moves the position behind a text to the next line. -/
theorem behind_line_append {line : List Char} (h : '\n' ∉ line) (text : List Char) :
    behind (line ++ '\n' :: text) = ⟨(behind text).line + 1, (behind text).column⟩ := by
  have hcolumn : (line ++ '\n' :: text).reverse.takeWhile (· ≠ '\n') =
      text.reverse.takeWhile (· ≠ '\n') := by
    rw [List.reverse_append, List.reverse_cons, List.append_assoc, List.takeWhile_append]
    split
    · next hall =>
      rw [(List.takeWhile_prefix _).eq_of_length hall]
      simp
    · rfl
  rw [behind, hcolumn, List.count_append, List.count_eq_zero.2 h, List.count_cons_self,
    Nat.zero_add]
  rfl

end Position

/-! ## Reading is tiling -/

/-- A lexeme stands on one line. -/
theorem IsLexeme.newline_not_mem {lexeme : List Char} (h : IsLexeme lexeme) : '\n' ∉ lexeme :=
  fun hmem => absurd (h.not_gap hmem).1 (by decide)

/-- No lexeme denotes the end mark. -/
theorem Denotes.ne_endOfInput {lexeme : List Char} {k : Token.Kind} (h : Denotes lexeme k) :
    k ≠ .endOfInput := by
  cases h <;> nofun

namespace Cursor

section

variable {c c' : Cursor} {t : Token}

/-- Where no token can be read a stream ends with the error. -/
theorem stream_of_next_error {e : LexicalError} (h : c.next = (.error e, c')) :
    c.stream = ⟨[], .error e, c'⟩ := by
  rw [stream]
  split
  · next heq => cases h.symm.trans heq; rfl
  · next heq => cases h.symm.trans heq

/-- Where the text ends a stream ends with the end mark. -/
theorem stream_of_next_mark (h : c.next = (.ok t, c')) (hk : t.kind = .endOfInput) :
    c.stream = ⟨[], .ok t, c'⟩ := by
  rw [stream]
  split
  · next heq => cases h.symm.trans heq
  · next heq => cases h.symm.trans heq; rw [dif_pos hk]

/-- A stream is its first token and then the stream behind that token. -/
theorem stream_of_next_token (h : c.next = (.ok t, c')) (hk : t.kind ≠ .endOfInput) :
    c.stream = ⟨t :: c'.stream.tokens, c'.stream.ending, c'.stream.stop⟩ := by
  rw [stream]
  split
  · next heq => cases h.symm.trans heq
  · next heq => cases h.symm.trans heq; rw [dif_neg hk]

/-- What is to come depends on the next step only. -/
theorem stream_congr (h : c.next = c'.next) : c.stream = c'.stream := by
  match hnext : c'.next with
  | (.error e, stop) =>
    rw [stream_of_next_error hnext, stream_of_next_error (h.trans hnext)]
  | (.ok t, behind) =>
    by_cases hk : t.kind = .endOfInput
    · rw [stream_of_next_mark hnext hk, stream_of_next_mark (h.trans hnext) hk]
    · rw [stream_of_next_token hnext hk, stream_of_next_token (h.trans hnext) hk]

/-- Where the text ends a whole stream is the end mark alone. -/
theorem complete_of_next_mark (h : c.next = (.ok t, c')) (hk : t.kind = .endOfInput) :
    c.stream.complete = .ok [t] := by
  rw [stream_of_next_mark h hk]
  rfl

/-- Without its first token a whole stream is still whole. -/
theorem complete_eq_ok_cons {s : TokenStream} {ts : List Token}
    (h : TokenStream.complete ⟨t :: s.tokens, s.ending, s.stop⟩ = .ok ts) :
    ∃ more, s.complete = .ok more ∧ t :: more = ts := by
  unfold TokenStream.complete at h ⊢
  cases hending : s.ending with
  | error e => rw [hending] at h; cases h
  | ok mark => rw [hending] at h; cases h; exact ⟨_, rfl, rfl⟩

/-- A whole stream is its first token and then the whole stream behind that token, and it fails if
that one does. -/
theorem complete_of_next_token (h : c.next = (.ok t, c')) (hk : t.kind ≠ .endOfInput) :
    c.stream.complete = c'.stream.complete.map (t :: ·) := by
  rw [stream_of_next_token h hk]
  simp only [TokenStream.complete]
  cases c'.stream.ending <;> rfl

end

/-- The tokens that a text is cut into, with the end mark. -/
theorem complete_gap {gap rest : List Char} {p : Position} (h : IsGap gap) :
    (stream ⟨gap ++ rest, p⟩).complete = (stream ⟨rest, p.after gap⟩).complete :=
  congrArg _ (stream_congr (next_gap h))

/-- What is read tiles the text. -/
theorem tiles_of_complete (c : Cursor) :
    ∀ {before : List Char} {ts : List Token}, c.position = .behind before →
      c.stream.complete = .ok ts → Tiles before c.rest ts := by
  fun_induction stream c with
  | case1 =>
    rintro _ _ - ⟨⟩
  | case2 c t behind hnext hkind =>
    intro before ts hpos h
    obtain ⟨text, p⟩ := c
    obtain rfl : p = .behind before := hpos
    cases h
    rcases next_eq_ok hnext with ⟨hgap, rfl, -⟩ | ⟨_, _, _, -, -, -, hdenotes, -⟩
    · rw [Position.after_behind]
      exact .mark hgap
    · exact absurd hkind hdenotes.ne_endOfInput
  | case3 c t behind hnext hkind s =>
    rename_i ih
    intro before ts hpos h
    obtain ⟨text, p⟩ := c
    obtain rfl : p = .behind before := hpos
    rcases next_eq_ok hnext with ⟨-, rfl, -⟩ |
      ⟨gap, lexeme, rest, rfl, hgap, hlongest, hdenotes, ht, rfl⟩
    · exact absurd rfl hkind
    · obtain ⟨more, hmore, rfl⟩ := complete_eq_ok_cons h
      rw [ht, Position.after_behind]
      exact .token hgap hlongest.isLexeme.ne_nil hlongest.isLexeme.newline_not_mem hlongest
        hdenotes (ih (Position.after_behind ..) hmore)

/-- What tiles the text is read. -/
theorem complete_of_tiles {before text : List Char} {ts : List Token} (h : Tiles before text ts) :
    (stream ⟨text, .behind before⟩).complete = .ok ts := by
  induction h with
  | @mark before gap hgap =>
    have hnext : next ⟨gap ++ [], .behind before⟩ = _ := (next_gap hgap).trans next_end
    rw [List.append_nil, Position.after_behind] at hnext
    exact complete_of_next_mark hnext rfl
  | @token before gap lexeme rest kind more hgap _ _ hlongest hdenotes _ ih =>
    have hnext : next ⟨gap ++ (lexeme ++ rest), .behind before⟩ = _ :=
      (next_gap hgap).trans (next_lexeme hlongest hdenotes)
    rw [Position.after_behind, Position.after_behind, List.append_assoc] at hnext
    rw [complete_of_next_token hnext hdenotes.ne_endOfInput, ih]
    rfl

/-- A text can be cut into tokens if they tile it. -/
theorem complete_ofText_eq_ok_iff {source : String} {ts : List Token} :
    (ofText source).stream.complete = .ok ts ↔ Tiles [] source.toList ts :=
  ⟨tiles_of_complete (ofText source) rfl, complete_of_tiles⟩

end Cursor

/-! ## Tokens in the lines of a text -/

/-- A token stands in the text where its position says. -/
theorem Tiles.exists_place {before text : List Char} {ts : List Token} {t : Token}
    (h : Tiles before text ts) (ht : t ∈ ts) (hk : t.kind ≠ .endOfInput) :
    ∃ front rest, before ++ text = front ++ (t.lexeme.toList ++ rest) ∧
      t.position = .behind front ∧ t.lexeme.toList ≠ [] ∧ '\n' ∉ t.lexeme.toList := by
  induction h with
  | mark _ =>
    obtain rfl := List.mem_singleton.1 ht
    exact absurd rfl hk
  | @token before gap lexeme rest kind more _ hne hone _ _ _ ih =>
    rcases List.mem_cons.1 ht with rfl | ht
    · refine ⟨before ++ gap, rest, ?_, rfl, ?_, ?_⟩
      · rw [String.toList_ofList, List.append_assoc]
      · rwa [String.toList_ofList]
      · rwa [String.toList_ofList]
    · obtain ⟨front, rest', heq, h⟩ := ih ht
      exact ⟨front, rest', by simpa only [List.append_assoc] using heq, h⟩

/-- A piece of text without a newline lies in the first line, or behind that line. -/
theorem first_line_or_behind {line tail front piece rest : List Char}
    (htail : ∀ c ∈ tail.head?, c = '\n') (hne : piece ≠ []) (hone : '\n' ∉ piece)
    (heq : line ++ tail = front ++ (piece ++ rest)) :
    (∃ more, line = front ++ (piece ++ more)) ∨
      ∃ behind, front = line ++ '\n' :: behind ∧ tail = '\n' :: (behind ++ (piece ++ rest)) := by
  obtain ⟨c, more, rfl⟩ := List.exists_cons_of_ne_nil hne
  rcases List.append_eq_append_iff.1 heq with ⟨between, rfl, rfl⟩ | ⟨bs, rfl, hbs⟩
  · cases between with
    | nil =>
      obtain rfl : c = '\n' := htail c rfl
      exact absurd (List.mem_cons_self ..) hone
    | cons d between =>
      obtain rfl : d = '\n' := htail d rfl
      exact .inr ⟨between, rfl, rfl⟩
  · rcases List.append_eq_append_iff.1 hbs with ⟨more', rfl, -⟩ | ⟨cut, hcut, rfl⟩
    · exact .inl ⟨more', rfl⟩
    · cases cut with
      | nil =>
        rw [List.append_nil] at hcut
        exact .inl ⟨[], by rw [hcut, List.append_nil]⟩
      | cons d cut =>
        obtain rfl : d = '\n' := htail d rfl
        exact absurd (hcut ▸ by simp) hone

/-- Where lines are joined, a piece of text without a newline lies in the line and behind the
column that its position gives. -/
theorem exists_line {lines : List (List Char)} (hlines : ∀ line ∈ lines, '\n' ∉ line)
    {front piece rest : List Char} (heq : ['\n'].intercalate lines = front ++ (piece ++ rest))
    (hne : piece ≠ []) (hone : '\n' ∉ piece) :
    ∃ l c line, Position.behind front = ⟨l + 1, c + 1⟩ ∧ lines[l]? = some line ∧
      piece <+: line.drop c := by
  induction lines generalizing front with
  | nil =>
    have hpiece : piece = [] := by
      rw [List.intercalate_nil] at heq
      exact (List.append_eq_nil_iff.1 (List.append_eq_nil_iff.1 heq.symm).2).1
    exact absurd hpiece hne
  | cons line lines ih =>
    obtain ⟨hline, hlines⟩ := List.forall_mem_cons.1 hlines
    -- Behind the first line there is nothing, or a line break and the other lines.
    have hfirst : ∃ tail, line ++ tail = front ++ (piece ++ rest) ∧
        (∀ c ∈ tail.head?, c = '\n') ∧
        ∀ behind, tail = '\n' :: behind → ['\n'].intercalate lines = behind := by
      cases lines with
      | nil => exact ⟨[], by simpa using heq, nofun, nofun⟩
      | cons line' lines =>
        rw [List.intercalate_cons_cons, List.append_assoc] at heq
        exact ⟨_, heq, by simp, by simp⟩
    obtain ⟨tail, heq, htail, hbehind⟩ := hfirst
    rcases first_line_or_behind htail hne hone heq with ⟨more, rfl⟩ | ⟨behind, rfl, htail'⟩
    · have hfront : '\n' ∉ front := fun h => hline (List.mem_append_left _ h)
      refine ⟨0, front.length, _, Position.behind_of_newline_not_mem hfront, rfl, ?_⟩
      rw [List.drop_left]
      exact List.prefix_append ..
    · obtain ⟨l, c, line', hpos, hline', hpiece⟩ := ih hlines (hbehind _ htail')
      refine ⟨l + 1, c, line', ?_, hline', hpiece⟩
      rw [Position.behind_line_append hline, hpos]

/-- A text is read without error exactly if it is tiled by the tokens that are read. In a text that
is given by its lines, every lexeme is then found in the line and at the column of its token. -/
theorem complete_eq_ok_iff_tiles :
    (∀ (source : String) (ts : List Token),
      (Cursor.ofText source).stream.complete = .ok ts ↔ Tiles [] source.toList ts) ∧
    ∀ lines : List String, (∀ line ∈ lines, '\n' ∉ line.toList) →
      ∀ ts, (Cursor.ofLines lines).stream.complete = .ok ts →
        ∀ t ∈ ts, t.kind ≠ .endOfInput → ∃ l c line, t.position = ⟨l + 1, c + 1⟩ ∧
          lines[l]? = some line ∧ t.lexeme.toList <+: line.toList.drop c := by
  refine ⟨fun _ _ => Cursor.complete_ofText_eq_ok_iff, fun lines hlines ts hts t ht hk => ?_⟩
  have htiles := Cursor.complete_ofText_eq_ok_iff.1 hts
  obtain ⟨front, rest, heq, hpos, hne, hone⟩ := htiles.exists_place ht hk
  rw [List.nil_append, String.toList_intercalate] at heq
  obtain ⟨l, c, line, hbehind, hline, hpiece⟩ := exists_line (by simpa using hlines) heq hne hone
  rw [List.getElem?_map] at hline
  obtain ⟨found, hfound, rfl⟩ := Option.map_eq_some_iff.1 hline
  exact ⟨l, c, found, hpos.trans hbehind, hfound, hpiece⟩

/-- Whether something succeeds with a given result can be decided. -/
instance decidableEqOk {ε α : Type} [DecidableEq α] (x : Except ε α) (a : α) :
    Decidable (x = .ok a) :=
  match x with
  | .ok b => decidable_of_iff (b = a) (by simp)
  | .error _ => isFalse nofun

/-- A comment over two lines, and a sign behind it. -/
theorem complete_eq_ok_iff_tiles_lines :
    (Cursor.ofLines ["a \x7b", "\x7d := 10"]).stream.complete =
        .ok [⟨.identifier "a", "a", ⟨1, 1⟩⟩, ⟨.symbol .assign, ":=", ⟨2, 3⟩⟩,
          ⟨.integer 10, "10", ⟨2, 6⟩⟩, ⟨.endOfInput, "", ⟨2, 8⟩⟩] ∧
      ∃ l c line, (⟨2, 6⟩ : Position) = ⟨l + 1, c + 1⟩ ∧
        ["a \x7b", "\x7d := 10"][l]? = some line ∧ "10".toList <+: line.toList.drop c := by
  have hread : (Cursor.ofLines ["a \x7b", "\x7d := 10"]).stream.complete =
      .ok [⟨.identifier "a", "a", ⟨1, 1⟩⟩, ⟨.symbol .assign, ":=", ⟨2, 3⟩⟩,
        ⟨.integer 10, "10", ⟨2, 6⟩⟩, ⟨.endOfInput, "", ⟨2, 8⟩⟩] := by decide +kernel
  exact ⟨hread, complete_eq_ok_iff_tiles.2 _ (by decide) _ hread ⟨.integer 10, "10", ⟨2, 6⟩⟩
    (by simp) (by simp)⟩

end SmallPascal
