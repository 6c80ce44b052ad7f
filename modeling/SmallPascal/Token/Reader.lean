import SmallPascal.Token.Cursor

/-!
# A token reader

A reader hands out the tokens of a text on demand. Single tokens can be read without end, since
behind the end of the input the end mark is read again; iteration, in contrast, hands out every
token once and stops behind the end mark or the first error, and `drain` collects what iteration
has left. Looking ahead reads on by as many tokens as it is asked for, and then goes back.
-/

namespace SmallPascal

/-- A text that is being read token by token. -/
structure TokenReader where
  cursor : Cursor
  /-- Whether iteration has handed out the end mark or an error. -/
  exhausted : Bool
deriving DecidableEq

namespace TokenReader

/-- What a reader can be asked. -/
inductive Request where
  /-- The next token. -/
  | next
  /-- The token that many tokens ahead. -/
  | peek (count : Nat)
  /-- The next token of the iteration. -/
  | iterate
  /-- All tokens that iteration has left. -/
  | drain

/-- What a reader answers. -/
inductive Answer where
  | token (t : Token)
  | tokens (ts : List Token)
  /-- Iteration is over. -/
  | none
  | error (e : LexicalError)

/-- A reader of a whole text. -/
def ofCursor (c : Cursor) : TokenReader :=
  ⟨c, false⟩

/-- Reads one token. -/
def next (r : TokenReader) : Except LexicalError Token × TokenReader :=
  (r.cursor.next.1, { r with cursor := r.cursor.next.2 })

/-- Reads on up to the token that stands `n` tokens behind the next one, or up to the first token
that is missing; `count` is the distance that an error names. -/
def readAhead (count : Nat) : Nat → TokenReader → Except LexicalError Token × TokenReader
  | 0, r => r.next
  | n + 1, r =>
    match r.next with
    | (.error e, r') => (.error e, r')
    | (.ok t, r') =>
      if t.kind = .endOfInput then (.error (.peekPastEnd count), r') else readAhead count n r'

/-- The `count`-th token to come; the next token is the first, and also the one before it. Where
the reading stops does not matter, since it goes on from where it was. -/
def peek (r : TokenReader) (count : Nat) : Except LexicalError Token × TokenReader :=
  let ahead := readAhead (max count 1) (max count 1 - 1) r
  (ahead.1, { ahead.2 with cursor := r.cursor })

/-- Takes one step of the iteration, unless it is over. -/
def iterate (r : TokenReader) : Option (Except LexicalError Token) × TokenReader :=
  if r.exhausted then (none, r)
  else
    let ends := match r.cursor.next.1 with
      | .ok t => t.kind = .endOfInput
      | .error _ => true
    (some r.cursor.next.1, ⟨r.cursor.next.2, ends⟩)

/-- Collects what iteration has left. -/
def drain (r : TokenReader) : Except LexicalError (List Token) × TokenReader :=
  if r.exhausted then (.ok [], r)
  else (r.cursor.stream.complete, ⟨r.cursor.stream.stop, true⟩)

/-- Answers a request. -/
def perform (r : TokenReader) : Request → Answer × TokenReader
  | .next =>
    match r.next with
    | (.ok t, r') => (.token t, r')
    | (.error e, r') => (.error e, r')
  | .peek count =>
    match r.peek count with
    | (.ok t, r') => (.token t, r')
    | (.error e, r') => (.error e, r')
  | .iterate =>
    match r.iterate with
    | (some (.ok t), r') => (.token t, r')
    | (some (.error e), r') => (.error e, r')
    | (none, r') => (.none, r')
  | .drain =>
    match r.drain with
    | (.ok ts, r') => (.tokens ts, r')
    | (.error e, r') => (.error e, r')

/-- Answers requests one after the other. -/
def performAll (r : TokenReader) : List Request → List Answer
  | [] => []
  | q :: rest =>
    let out := r.perform q
    out.1 :: out.2.performAll rest

end TokenReader

end SmallPascal
