import SmallPascal.Text
import SmallPascal.Token
import SmallPascal.Trace

/-!
# Cutting a text into tokens

A cursor is a text still to be read and the position it begins at. `Cursor.next` passes white space
and comments, then takes the longest spelling that stands in front (`spellingAtFront`) and says what
it denotes (`Token.Kind.ofSpelling?`). Reading is total: where no token can be read it reports why
and still moves on, so a caller may continue behind the failure.

Every step that does not report the end of the input leaves a shorter text: `Cursor.next_lt`.

Reading from a cursor until nothing more can be read gives a `TokenStream`: the tokens in front of
the end, and then how the text ends, by the end mark or by a lexical error.
-/

namespace SmallPascal

/-! ## Why no token can be read -/

/-- Why the next token cannot be read. -/
inductive LexicalError where
  /-- No token begins with this character, or with it and what follows. -/
  | invalidCharacter (char : Char) (position : Position)
  /-- A numeral whose value does not fit. -/
  | invalidInteger (digits : String) (position : Position)
  /-- A comment that is not closed; the position is that of its opening brace. -/
  | unterminatedComment (position : Position)
  /-- Lookahead by so many tokens when the input ends before. -/
  | peekPastEnd (count : Nat)
deriving DecidableEq

/-- The wording of a lexical error. -/
def LexicalError.message : LexicalError → String
  | .invalidCharacter char position =>
    s!"Invalid character '{char}' at line {position.line}, column {position.column}"
  | .invalidInteger digits position =>
    s!"Invalid integer literal '{digits}' at line {position.line}, column {position.column}"
  | .unterminatedComment position =>
    s!"Unterminated comment starting at line {position.line}, column {position.column}"
  | .peekPastEnd count => s!"Cannot peek {count} tokens ahead: input ends first"

/-! ## One token -/

/-- A text still to be read, and where it begins. -/
structure Cursor where
  rest : List Char
  position : Position
deriving DecidableEq

/-- The longest piece in front of a text that may spell a token: a run of digits, a word, or a sign.
It is empty where no token begins. -/
def spellingAtFront (text : List Char) : List Char :=
  match text with
  | [] => []
  | c :: _ =>
    if c.isDigit then text.takeWhile Char.isDigit
    else if c.isAlpha then text.takeWhile Char.isAlphanum
    else ((Symbol.longestAt? text).map fun s => s.spelling.toList).getD []

/-- What a spelling denotes. Of the pieces that `spellingAtFront` gives, only numerals that are too
large denote nothing. -/
def Token.Kind.ofSpelling? (text : List Char) : Option Token.Kind :=
  match text with
  | [] => none
  | c :: _ =>
    if c.isDigit then (Text.integerOfDigits? text).map .integer
    else if c.isAlpha then some (.ofWord (String.ofList text))
    else (Symbol.ofSpelling? (String.ofList text)).map .symbol

namespace Cursor

/-- A cursor at the beginning of a text. -/
def ofText (text : String) : Cursor :=
  ⟨text.toList, .start⟩

/-- A cursor at the beginning of a text that is given by its lines. -/
def ofLines (lines : List String) : Cursor :=
  ofText ("\n".intercalate lines)

/-- Moves over the next `n` characters. -/
def drop (c : Cursor) (n : Nat) : Cursor :=
  ⟨c.rest.drop n, c.position.after (c.rest.take n)⟩

/-- Passes white space and comments from position `p`. Inside a comment, `opened` is the position
of its opening brace; if the text ends there, that position is returned. -/
def skipGapFrom (opened : Option Position) (p : Position) :
    List Char → Option Position × Cursor
  | [] => (opened, ⟨[], p⟩)
  | c :: text =>
    if opened.isSome then skipGapFrom (if c = '}' then none else opened) (p.next c) text
    else if Text.isBlank c then skipGapFrom none (p.next c) text
    else if c = '{' then skipGapFrom (some p) (p.next c) text
    else (none, ⟨c :: text, p⟩)

/-- Passes white space and comments. The first component is the position of a comment that is not
closed, in which case the whole text has been passed. -/
def skipGap (c : Cursor) : Option Position × Cursor :=
  skipGapFrom none c.position c.rest

/-- Reads a token that stands right in front. -/
def readToken (c : Cursor) : Except LexicalError Token × Cursor :=
  match c.rest with
  | [] => (.ok ⟨.endOfInput, "", c.position⟩, c)
  | char :: _ =>
    match spellingAtFront c.rest with
    | [] => (.error (.invalidCharacter char c.position), c.drop 1)
    | spelling =>
      (match Token.Kind.ofSpelling? spelling with
        | some kind => .ok ⟨kind, String.ofList spelling, c.position⟩
        | none => .error (.invalidInteger (String.ofList spelling) c.position),
        c.drop spelling.length)

/-- Reads the next token, and moves behind it or behind what could not be read. -/
def next (c : Cursor) : Except LexicalError Token × Cursor :=
  match c.skipGap with
  | (some opened, stop) => (.error (.unterminatedComment opened), stop)
  | (none, front) => front.readToken

/-! ## Progress -/

/-- Passing white space and comments does not make the text longer, wherever it begins. -/
theorem length_skipGapFrom_le (opened : Option Position) (p : Position) (text : List Char) :
    (skipGapFrom opened p text).2.rest.length ≤ text.length := by
  fun_induction skipGapFrom opened p text with
  | case1 => simp
  | case2 _ _ _ _ _ ih => simp only [List.length_cons]; omega
  | case3 _ _ _ _ _ _ ih => simp only [List.length_cons]; omega
  | case4 _ _ _ _ _ ih => simp only [List.length_cons]; omega
  | case5 => simp

/-- Passing a gap does not make the text longer. -/
theorem length_skipGap_le (c : Cursor) : c.skipGap.2.rest.length ≤ c.rest.length :=
  length_skipGapFrom_le none c.position c.rest

/-- A token in front is behind the cursor once it has been read, unless it was the end. -/
theorem readToken_lt {c : Cursor} {r : Except LexicalError Token} {c' : Cursor}
    (h : c.readToken = (r, c')) (hne : c.rest ≠ []) : c'.rest.length < c.rest.length := by
  unfold readToken at h
  split at h
  · contradiction
  · next char text heq =>
    have hpos : 0 < c.rest.length := by simp [heq]
    split at h
    · obtain ⟨-, rfl⟩ := Prod.mk.inj h
      simp only [drop, List.length_drop]
      omega
    · next hs =>
      obtain ⟨-, rfl⟩ := Prod.mk.inj h
      have : 0 < (spellingAtFront c.rest).length := List.length_pos_iff.2 hs
      simp only [drop, List.length_drop]
      omega

/-- A step that yields a token other than the end mark leaves a shorter text. -/
theorem next_lt {c c' : Cursor} {t : Token} (h : c.next = (.ok t, c'))
    (hk : t.kind ≠ .endOfInput) : c'.rest.length < c.rest.length := by
  unfold next at h
  split at h
  · simp at h
  · next front hs =>
    have hle := c.length_skipGap_le
    rw [hs] at hle
    have hne : front.rest ≠ [] := by
      intro hnil
      simp only [readToken, hnil, Prod.mk.injEq, Except.ok.injEq] at h
      exact hk (h.1 ▸ rfl)
    exact Nat.lt_of_lt_of_le (readToken_lt h hne) hle

end Cursor

/-! ## All tokens to come -/

/-- What is still to be read from a cursor. -/
structure TokenStream where
  /-- The tokens before the end mark or the first failure. -/
  tokens : List Token
  /-- The end mark, or why reading stops. -/
  ending : Except LexicalError Token
  /-- The cursor behind the ending. -/
  stop : Cursor

namespace Cursor

/-- Everything that can be read from a cursor. -/
def stream (c : Cursor) : TokenStream :=
  match _ : c.next with
  | (.error e, stop) => ⟨[], .error e, stop⟩
  | (.ok t, behind) =>
    if _ : t.kind = .endOfInput then ⟨[], .ok t, behind⟩
    else
      let s := behind.stream
      ⟨t :: s.tokens, s.ending, s.stop⟩
termination_by c.rest.length
decreasing_by exact next_lt ‹_› ‹_›

/-- Moves over `n` tokens, whether they can be read or not. -/
def skip : Nat → Cursor → Cursor
  | 0, c => c
  | n + 1, c => skip n c.next.2

end Cursor

namespace TokenStream

/-- The whole stream with its end mark, or the error that cuts it short. -/
def complete (s : TokenStream) : Except LexicalError (List Token) :=
  s.ending.map fun mark => s.tokens ++ [mark]

/-- The tokens of a stream and its end mark, if there is one. -/
def scanned (s : TokenStream) : List Token :=
  s.tokens ++ s.ending.toOption.toList

/-- The events of reading a stream, one for each word in it. -/
def events (s : TokenStream) : List Event :=
  s.tokens.filterMap fun t =>
    match t.kind with
    | .identifier _ | .keyword _ => some (.wordRead t.lexeme t.kind.isKeyword)
    | _ => none

end TokenStream

/-! ## What a stream consists of

No token in front of the end is an end mark. The ending is one if it can be read, and otherwise an
error of the text, never one of looking ahead.
-/

namespace Cursor

/-- Reading a token never fails because of looking ahead. -/
theorem next_ne_peekPastEnd (c : Cursor) (n : Nat) : c.next.1 ≠ .error (.peekPastEnd n) := by
  unfold next
  split
  · simp
  · next front _ =>
    unfold readToken
    split
    · simp
    · split
      · simp
      · split <;> simp

/-- No token in front of the end is an end mark. -/
theorem stream_kind_ne_endOfInput (c : Cursor) :
    ∀ t ∈ c.stream.tokens, t.kind ≠ .endOfInput := by
  fun_induction stream c with
  | case1 => simp
  | case2 => simp
  | case3 c t behind hnext hkind s ih => simpa [hkind] using ih

/-- If the ending can be read, it is the end mark. -/
theorem stream_mark_kind {c : Cursor} {mark : Token} (h : c.stream.ending = .ok mark) :
    mark.kind = .endOfInput := by
  fun_induction stream c with
  | case1 => cases h
  | case2 c t behind hnext hkind => cases h; exact hkind
  | case3 c t behind hnext hkind s ih => exact ih h

/-- A stream never ends with an error of looking ahead. -/
theorem stream_ending_ne_peekPastEnd (c : Cursor) (n : Nat) :
    c.stream.ending ≠ .error (.peekPastEnd n) := by
  fun_induction stream c with
  | case1 c e stop hnext =>
    rintro ⟨⟩
    exact next_ne_peekPastEnd c n (congrArg Prod.fst hnext)
  | case2 => simp
  | case3 c t behind hnext hkind s ih => exact ih

end Cursor

end SmallPascal
