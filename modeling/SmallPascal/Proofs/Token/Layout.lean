import SmallPascal.Proofs.Token.Tiling

/-!
# Laying tokens out

Any tokens can be written down: each by the text of its kind, numerals with zeros in front of them
if one likes, and with gaps around them that are not empty between two tokens (`layout`). Reading
gives the tokens back, whatever the gaps are (`WellLaid.exists_tiles`).

In a text that can be read a gap may be put in wherever reading passes between gaps and lexemes
(`IsTokenBoundary`), also where two tokens touch. It changes the positions of the tokens behind it
and nothing else (`Tiles.exists_insert`): the lexeme in front of the place stays a longest one
because a gap ends every lexeme, and all others see the character that they saw before.
-/

namespace SmallPascal

/-- The kind and the lexeme of a token, without its position. -/
def Token.word (t : Token) : Token.Kind × String :=
  (t.kind, t.lexeme)

/-- A kind of which there is a token in some text, the end mark apart. -/
def Token.Kind.IsWritable : Token.Kind → Prop
  | .integer n => 0 ≤ n.toInt
  | .identifier name => IsName name
  | .keyword _ => True
  | .symbol _ => True
  | .endOfInput => False

/-- A token to be written, with the gap in front of it and the zeros in front of a numeral. -/
structure Piece where
  gap : List Char
  kind : Token.Kind
  zeros : Nat

/-- How a piece is written behind its gap. -/
def Piece.lexeme (p : Piece) : List Char :=
  match p.kind with
  | .integer _ => List.replicate p.zeros '0' ++ p.kind.text.toList
  | _ => p.kind.text.toList

/-- The text of pieces and of the gap behind the last. -/
def layout : List Piece → List Char → List Char
  | [], last => last
  | p :: pieces, last => p.gap ++ (p.lexeme ++ layout pieces last)

/-- Pieces that can be read back: no two of them touch. -/
structure WellLaid (pieces : List Piece) (last : List Char) : Prop where
  writable : ∀ p ∈ pieces, p.kind.IsWritable
  isGap : ∀ p ∈ pieces, IsGap p.gap
  isGap_last : IsGap last
  apart : ∀ p ∈ pieces.tail, p.gap ≠ []

/-! ## Spellings -/

/-- Zeros in front of a numeral do not change its value. -/
theorem decimalValue_zeros (zeros : Nat) (digits : List Char) :
    Text.decimalValue (List.replicate zeros '0' ++ digits) = Text.decimalValue digits := by
  induction zeros with
  | zero => rfl
  | succ zeros ih =>
    rw [List.replicate_succ, List.cons_append, ← ih]
    simp [Text.decimalValue, Nat.ofDigitChars_cons]

/-- The text of a kind denotes it, with zeros in front too if it is a numeral. -/
theorem Piece.denotes {p : Piece} (h : p.kind.IsWritable) : Denotes p.lexeme p.kind := by
  obtain ⟨gap, kind, zeros⟩ := p
  cases kind with
  | integer n =>
    obtain ⟨m, hm⟩ := Int.eq_ofNat_of_zero_le h
    have hlexeme : lexeme ⟨gap, .integer n, zeros⟩ =
        List.replicate zeros '0' ++ Nat.toDigits 10 m := by
      rw [lexeme, Token.Kind.text, hm]
      simp only [Int.toString_eq_repr]
      exact congrArg _ Nat.toList_repr
    rw [hlexeme]
    refine .integer ⟨?_, ?_⟩ ?_
    · simp [Nat.toDigits_ne_nil]
    · intro c hc
      rcases List.mem_append.1 hc with hc | hc
      · rw [List.eq_of_mem_replicate hc]
        decide
      · exact Nat.isDigit_of_mem_toDigits (by decide) (by decide) hc
    · rw [hm, decimalValue_zeros, Text.decimalValue_toDigits]
  | identifier name => exact .identifier h
  | keyword k => exact .keyword k
  | symbol s => exact .symbol s
  | endOfInput => exact h.elim

/-! ## Reading a layout -/

/-- Pieces are read back from their layout. -/
theorem WellLaid.exists_tiles {pieces : List Piece} {last : List Char} (h : WellLaid pieces last)
    (before : List Char) :
    ∃ ts, Tiles before (layout pieces last) ts ∧ ts.map Token.word =
      pieces.map (fun p => (p.kind, String.ofList p.lexeme)) ++ [(.endOfInput, "")] := by
  induction pieces generalizing before with
  | nil => exact ⟨_, .mark h.isGap_last, rfl⟩
  | cons p pieces ih =>
    have hrest : WellLaid pieces last :=
      ⟨fun q hq => h.writable q (.tail _ hq), fun q hq => h.isGap q (.tail _ hq), h.isGap_last,
        fun q hq => h.apart q (List.mem_of_mem_tail hq)⟩
    have hdenotes := Piece.denotes (h.writable p (.head _))
    have hlexeme := hdenotes.isLexeme
    have hbehind : ∀ c ∈ (layout pieces last).head?, Text.isBlank c ∨ c = '{' := by
      cases pieces with
      | nil =>
        by_cases hlast : last = []
        · subst hlast
          exact nofun
        · rw [layout, ← List.append_nil last]
          exact h.isGap_last.head_gap hlast
      | cons q pieces => exact (h.isGap q (.tail _ (.head _))).head_gap (h.apart q (.head _))
    obtain ⟨ts, hts, hwords⟩ := ih hrest (before ++ (p.gap ++ p.lexeme))
    exact ⟨_, .token (h.isGap p (.head _)) hlexeme.ne_nil hlexeme.newline_not_mem
      (hlexeme.isLongestLexeme_of_gap hbehind) hdenotes hts, congrArg (_ :: ·) hwords⟩

/-! ## Putting in a gap -/

/-- A place in a text that is reached from its beginning over gaps and longest lexemes. -/
inductive IsTokenBoundary : List Char → List Char → Prop where
  | start (text : List Char) : IsTokenBoundary [] text
  | gap {before gap after : List Char} (h : IsTokenBoundary before (gap ++ after))
    (isGap : IsGap gap) : IsTokenBoundary (before ++ gap) after
  | lexeme {before lexeme after : List Char} (h : IsTokenBoundary before (lexeme ++ after))
    (longest : IsLongestLexeme lexeme (lexeme ++ after)) : IsTokenBoundary (before ++ lexeme) after

/-- A text that may stand behind a lexeme instead of another one: it goes on with the same
character, or with one that ends every lexeme. -/
def Replaces (after' after : List Char) : Prop :=
  after'.head? = after.head? ∨ ∀ c ∈ after'.head?, Text.isBlank c ∨ c = '{'

section

variable {before after after' gap lexeme text : List Char} {ts vs : List Token}

/-- Behind the same piece of text, one text may stand for another if it may do so without the
piece. -/
theorem Replaces.append (h : Replaces after' after) (text : List Char) :
    Replaces (text ++ after') (text ++ after) := by
  cases text with
  | nil => exact h
  | cons c text => exact .inl rfl

/-- A gap may be put in front of any text: an empty one changes nothing, and any other begins with
what ends every lexeme. -/
theorem replaces_of_gap (h : IsGap gap) : Replaces (gap ++ after) after := by
  by_cases hne : gap = []
  · subst hne
    exact .inl rfl
  · exact .inr (h.head_gap hne)

/-- A lexeme still goes on no further when the text behind it is replaced. -/
theorem IsLongestLexeme.replace (h : IsLongestLexeme lexeme (lexeme ++ after))
    (hrep : Replaces after' after) : IsLongestLexeme lexeme (lexeme ++ after') :=
  hrep.elim h.congr h.isLexeme.isLongestLexeme_of_gap

/-- A tiling does not depend on what is in front, but for the positions. -/
theorem Tiles.exists_rebase (h : Tiles before text ts) (before' : List Char) :
    ∃ ts', Tiles before' text ts' ∧ ts'.map Token.word = ts.map Token.word := by
  induction h generalizing before' with
  | mark hgap => exact ⟨_, .mark hgap, rfl⟩
  | token hgap hne hone hlongest hdenotes _ ih =>
    obtain ⟨ts', hts', hwords⟩ := ih (before' ++ (_ ++ _))
    exact ⟨_, .token hgap hne hone hlongest hdenotes hts', congrArg (_ :: ·) hwords⟩

/-- A gap in front belongs to the gap of the first token. -/
theorem tiles_gap_append_iff (hgap : IsGap gap) :
    Tiles before (gap ++ text) ts ↔ Tiles (before ++ gap) text ts := by
  have hstream : (Cursor.stream ⟨gap ++ text, .behind before⟩).complete =
      (Cursor.stream ⟨text, .behind (before ++ gap)⟩).complete := by
    rw [Cursor.complete_gap hgap, Position.after_behind]
  constructor
  · intro h
    exact Cursor.tiles_of_complete _ rfl (hstream ▸ Cursor.complete_of_tiles h)
  · intro h
    exact Cursor.tiles_of_complete _ rfl (hstream.trans (Cursor.complete_of_tiles h))

/-- A token without a gap in front. -/
theorem Tiles.token_front {k : Token.Kind}
    (hlongest : IsLongestLexeme lexeme (lexeme ++ after)) (hdenotes : Denotes lexeme k)
    (h : Tiles (before ++ lexeme) after ts) :
    Tiles before (lexeme ++ after) (⟨k, String.ofList lexeme, .behind before⟩ :: ts) := by
  have hcons : Tiles before ([] ++ (lexeme ++ after)) _ :=
    .token .nil hlongest.isLexeme.ne_nil hlongest.isLexeme.newline_not_mem hlongest hdenotes h
  rwa [List.append_nil] at hcons

/-- A text that begins with a longest lexeme has it as its first token. -/
theorem Tiles.exists_token (h : Tiles before (lexeme ++ after) ts)
    (hlongest : IsLongestLexeme lexeme (lexeme ++ after)) :
    ∃ k more, Denotes lexeme k ∧ ts = ⟨k, String.ofList lexeme, .behind before⟩ :: more ∧
      Tiles (before ++ lexeme) after more := by
  generalize htext : lexeme ++ after = text at h hlongest
  cases h with
  | mark hgap =>
    have hnil := hgap.eq_nil_of_lexeme hlongest.isLexeme ((List.append_nil _).trans htext.symm)
    subst hnil
    exact absurd (List.append_eq_nil_iff.1 htext).1 hlongest.isLexeme.ne_nil
  | token hgap _ _ hlongest' hdenotes hmore =>
    obtain rfl := hgap.eq_nil_of_lexeme hlongest.isLexeme htext.symm
    obtain rfl := hlongest.unique hlongest'
    obtain rfl := List.append_cancel_left htext
    exact ⟨_, _, hdenotes, by rw [List.append_nil], hmore⟩

/-- A beginning of a text that ends at a token boundary has its own tokens, whatever is put in the
place of the rest. -/
theorem IsTokenBoundary.exists_front (h : IsTokenBoundary before after)
    (hts : Tiles [] (before ++ after) ts) :
    ∃ us vs, ts = us ++ vs ∧ Tiles before after vs ∧
      ∀ after' vs', Replaces after' after → Tiles before after' vs' →
        Tiles [] (before ++ after') (us ++ vs') := by
  induction h with
  | start text => exact ⟨[], ts, rfl, hts, fun _ _ _ h => h⟩
  | @gap before gap after _ hgap ih =>
    rw [List.append_assoc] at hts
    obtain ⟨us, vs, rfl, hvs, hfront⟩ := ih hts
    refine ⟨us, vs, rfl, (tiles_gap_append_iff hgap).1 hvs, fun after' vs' hrep hvs' => ?_⟩
    rw [List.append_assoc]
    exact hfront _ vs' (hrep.append gap) ((tiles_gap_append_iff hgap).2 hvs')
  | @lexeme before lexeme after _ hlongest ih =>
    rw [List.append_assoc] at hts
    obtain ⟨us, vs, rfl, hvs, hfront⟩ := ih hts
    obtain ⟨k, more, hdenotes, rfl, hmore⟩ := hvs.exists_token hlongest
    refine ⟨us ++ [⟨k, String.ofList lexeme, .behind before⟩], more, by simp, hmore,
      fun after' vs' hrep hvs' => ?_⟩
    rw [List.append_assoc, List.append_assoc]
    exact hfront _ _ (hrep.append lexeme) (.token_front (hlongest.replace hrep) hdenotes hvs')

/-- A gap may be put in at a token boundary. -/
theorem Tiles.exists_insert (hts : Tiles [] (before ++ after) ts)
    (h : IsTokenBoundary before after) (hgap : IsGap gap) :
    ∃ ts', Tiles [] (before ++ (gap ++ after)) ts' ∧
      ts'.map Token.word = ts.map Token.word := by
  obtain ⟨us, vs, rfl, hvs, hfront⟩ := h.exists_front hts
  obtain ⟨vs', hvs', hwords⟩ := hvs.exists_rebase (before ++ gap)
  refine ⟨us ++ vs', hfront _ _ (replaces_of_gap hgap) ((tiles_gap_append_iff hgap).2 hvs'), ?_⟩
  rw [List.map_append, List.map_append, hwords]

end

end SmallPascal
